import ClassLang.Proofs.Access
import ClassLang.Proofs.Calls

/-!
# Types at all nodes

The check of an accepted program writes a type at every expression, wherever it stands, except at the callees of
calls, and it writes none there (`Check.nodes_typed`). The types fit together: a node that uses a method carries
what the method returns, and the types of the arguments fit its parameters (`Expr.Coheres`).

Some nodes look alike but for where they stand, so what is said of callees is said of places: `Expr.roles` lists
the nodes and marks the callees. The roots of an accepted program are well typed (`WellTyped.roots_typed`), and what
is said of all nodes follows from the rules for expressions.

Lowering asks for the types of operands and objects, and never for that of a callee. So it does not fail for want
of a type (`Lower.image_informed`).
-/

namespace ClassLang

open RootLemmas

/-! ## Nodes and where they stand -/

section

variable {ν : Type}

namespace Expr

mutual

/-- The nodes of an expression in the order of `nodes`, each with a mark whether it is the callee of a call. The mark
of the expression itself depends on where it stands. -/
def roles (callee : Bool) : Expr ν → List (Expr ν × Bool)
  | .member e x n => (.member e x n, callee) :: e.roles false
  | .call e es n => (.call e es n, callee) :: (e.roles true ++ rolesList es)
  | .new c es n => (.new c es n, callee) :: rolesList es
  | .assign e v n => (.assign e v n, callee) :: (e.roles false ++ v.roles false)
  | .binary op l r n => (.binary op l r n, callee) :: (l.roles false ++ r.roles false)
  | .unary op e n => (.unary op e n, callee) :: e.roles false
  | .assert e n => (.assert e n, callee) :: e.roles false
  | .instanceTest e w n => (.instanceTest e w n, callee) :: e.roles false
  | .cast e w n => (.cast e w n, callee) :: e.roles false
  | e => [(e, callee)]

/-- `roles` of several expressions that are no callees. -/
def rolesList : List (Expr ν) → List (Expr ν × Bool)
  | [] => []
  | e :: es => e.roles false ++ rolesList es

end

end Expr

/-- The nodes of a program in the order of the text, each with a mark whether it is the callee of a call. -/
def Program.roles (p : Program ν) : List (Expr ν × Bool) := Expr.rolesList p.roots

namespace AnnotationLemmas

mutual

theorem roles_nodes : ∀ (callee : Bool) (e : Expr ν), (e.roles callee).map Prod.fst = e.nodes
  | _, .number .. | _, .string .. | _, .boolean .. | _, .null .. | _, .name .. | _, .this ..
  | _, .base .. => rfl
  | _, .member e _ _ | _, .unary _ e _ | _, .assert e _ | _, .instanceTest e _ _ | _, .cast e _ _ => by
    simp only [Expr.roles, Expr.nodes, List.map_cons, roles_nodes false e]
  | _, .call e es _ => by
    simp only [Expr.roles, Expr.nodes, List.map_cons, List.map_append, roles_nodes true e, rolesList_nodes es]
  | _, .new _ es _ => by simp only [Expr.roles, Expr.nodes, List.map_cons, rolesList_nodes es]
  | _, .assign l r _ | _, .binary _ l r _ => by
    simp only [Expr.roles, Expr.nodes, List.map_cons, List.map_append, roles_nodes false l, roles_nodes false r]

theorem rolesList_nodes : ∀ es : List (Expr ν), (Expr.rolesList es).map Prod.fst = Expr.nodesList es
  | [] => rfl
  | e :: es => by
    simp only [Expr.rolesList, Expr.nodesList, List.map_append, roles_nodes false e, rolesList_nodes es]

end

theorem mem_rolesList {es : List (Expr ν)} {n : Expr ν × Bool} :
    n ∈ Expr.rolesList es ↔ ∃ e ∈ es, n ∈ e.roles false := by
  induction es with
  | nil => simp [Expr.rolesList]
  | cons e es ih => simp [Expr.rolesList, ih]

end AnnotationLemmas

open AnnotationLemmas

/-- The roles of a program are those of all its nodes. -/
theorem Program.roles_nodes (p : Program ν) : p.roles.map Prod.fst = p.nodes :=
  (rolesList_nodes p.roots).trans p.nodes_roots

end

/-! ## What the types say -/

/-- All nodes of an expression carry a type, but for the callees of calls, which carry none. Whether the
expression is a callee itself is given. -/
def Expr.Annotated (callee : Bool) (e : Expr Typing) : Prop :=
  ∀ n ∈ e.roles callee, n.1.note.type.isSome = !n.2

namespace ClassTable

/-- The arguments carry types that fit the parameters of a method, one by one. -/
def Accepts (t : ClassTable) (arguments : List (Expr Typing)) (params : List Ty) : Prop :=
  List.Forall₂ (fun e p => ∃ τ, e.note.type = some τ ∧ t.isAssignable τ p = true) arguments params

/-- The class of a receiver has or inherits a method that accepts the arguments, and the node of its use carries
the type that it returns. -/
def Answers (t : ClassTable) (receiver : Option TypeId) (key : MemberKey) (arguments : List (Expr Typing))
    (node : Typing) : Prop :=
  ∃ id owner m, receiver = some id ∧ t.lookupMethod? id key = some (owner, m) ∧
    t.Accepts arguments m.params ∧ node.type = some m.returns

end ClassTable

/-- The type of a node fits those of its parts. A call and an operator use a method of the class of the receiver;
equality on what may be null uses that of the root class. A new instance is made by the constructor of its class.
An assignment has the type of its target, which the value fits. -/
def Expr.Coheres (t : ClassTable) : Expr Typing → Prop
  | .call (.member o x _) es n => t.Answers o.receiver? (.named x.name) es n
  | .call _ _ _ => False
  | .new c es n => ∃ id m, t.find? c.name = some id ∧ t.constructor? id = some m ∧ t.Accepts es m.params ∧
      n.type = some (.plain id)
  | .binary op l r n => t.Answers (l.operatorReceiver? op) (.binary op) [r] n
  | .unary op e n => t.Answers e.receiver? (.unary op) [] n
  | .assign e v n => ∃ τ, e.note.type = some τ ∧ t.Accepts [v] [τ] ∧ n.type = some τ
  | _ => True

namespace AnnotationLemmas

variable {t : ClassTable} {a : Analysis} {env : Environment}

theorem list_annotated {es : List (Expr Typing)} :
    (∀ n ∈ Expr.rolesList es, n.1.note.type.isSome = !n.2) ↔ ∀ e ∈ es, e.Annotated false := by
  simp only [mem_rolesList, Expr.Annotated]
  exact ⟨fun h e he n hn => h n ⟨e, he, hn⟩, fun h n ⟨e, he, hn⟩ => h e he n hn⟩

/-- The nodes of a well-typed expression carry types, except the callees. -/
theorem typed_annotated {e : Expr Typing} {τ : Ty} (h : Typed env e τ) : e.Annotated false := by
  unfold Expr.Annotated
  induction h with
  | number | string | boolean | null | name | this | base => exact List.forall_mem_singleton.mpr rfl
  | member _ _ _ _ ih | unary _ _ _ _ ih | assert _ ih | instanceTest _ _ _ ih | cast _ _ _ ih =>
    exact List.forall_mem_cons.mpr ⟨rfl, ih⟩
  | call _ _ _ _ hlen _ _ ih ihs =>
    exact List.forall_mem_cons.mpr ⟨rfl, List.forall_mem_append.mpr ⟨List.forall_mem_cons.mpr ⟨rfl, ih⟩,
      list_annotated.mpr (Lower.LowerableLemmas.of_zip hlen ihs)⟩⟩
  | new _ _ _ hlen _ _ ihs =>
    exact List.forall_mem_cons.mpr ⟨rfl, list_annotated.mpr (Lower.LowerableLemmas.of_zip hlen ihs)⟩
  | assignName _ _ _ ih =>
    exact List.forall_mem_cons.mpr ⟨rfl, List.forall_mem_append.mpr ⟨List.forall_mem_singleton.mpr rfl, ih⟩⟩
  | assignMember _ _ _ _ _ _ _ ih ih' =>
    exact List.forall_mem_cons.mpr ⟨rfl, List.forall_mem_append.mpr ⟨List.forall_mem_cons.mpr ⟨rfl, ih⟩, ih'⟩⟩
  | binary _ _ _ _ _ _ ih ih' =>
    exact List.forall_mem_cons.mpr ⟨rfl, List.forall_mem_append.mpr ⟨ih, ih'⟩⟩

theorem accepts_typed {es : List (Expr Typing)} {τs params : List Ty} (hlen : es.length = τs.length)
    (hes : ∀ x ∈ es.zip τs, Typed env x.1 x.2) (hfit : t.Fit τs params) : t.Accepts es params := by
  unfold ClassTable.Fit at hfit
  induction hfit generalizing es with
  | nil =>
    obtain rfl := List.length_eq_zero_iff.mp hlen
    exact .nil
  | @cons τ p τs params hτ _ ih =>
    match es with
    | e :: es =>
      rw [List.zip_cons_cons, List.forall_mem_cons] at hes
      exact .cons ⟨τ, hes.1.note_type, hτ⟩ (ih (Nat.succ.inj hlen) hes.2)

/-- A single argument, of which the rules say only that it fits the first parameter. -/
theorem accepts_single {e : Expr Typing} {τ : Ty} {params : List Ty} (he : Typed env e τ)
    (hlen : params.length = 1) (hfit : ∀ p ∈ params.head?, t.isAssignable τ p = true) :
    t.Accepts [e] params := by
  obtain ⟨p, rfl⟩ := List.length_eq_one_iff.mp hlen
  exact .cons ⟨τ, he.note_type, hfit p rfl⟩ .nil

theorem list_coheres {es : List (Expr Typing)} {τs : List Ty} (hlen : es.length = τs.length)
    (h : ∀ x ∈ es.zip τs, ∀ n ∈ x.1.nodes, n.Coheres t) : ∀ n ∈ Expr.nodesList es, n.Coheres t := by
  intro n hn
  obtain ⟨e, he, hn⟩ := mem_nodesList.mp hn
  exact Lower.LowerableLemmas.of_zip (P := fun e => ∀ n ∈ e.nodes, n.Coheres t) hlen h e he n hn

/-- The types of a well-typed expression fit together at each of its nodes. -/
theorem typed_coheres (W : WellTyped a) (hcls : env.classes = a.classes) {e : Expr Typing} {τ : Ty}
    (h : Typed env e τ) : ∀ n ∈ e.nodes, n.Coheres a.classes := by
  rw [← hcls]
  induction h with
  | number | string | boolean | null | name | this | base => exact List.forall_mem_singleton.mpr trivial
  | member _ _ _ _ ih | assert _ ih | instanceTest _ _ _ ih | cast _ _ _ ih =>
    exact List.forall_mem_cons.mpr ⟨trivial, ih⟩
  | call he _ hm _ hlen hes hfit ih ihs =>
    exact List.forall_mem_cons.mpr
      ⟨⟨_, _, _, AccessLemmas.receiver_typed he, hm, accepts_typed hlen hes hfit, rfl⟩,
        List.forall_mem_append.mpr ⟨List.forall_mem_cons.mpr ⟨trivial, ih⟩, list_coheres hlen ihs⟩⟩
  | new hid hm _ hlen hes hfit ihs =>
    exact List.forall_mem_cons.mpr
      ⟨⟨_, _, hid, hm, accepts_typed hlen hes hfit, rfl⟩, list_coheres hlen ihs⟩
  | assignName _ hv hfit ih =>
    exact List.forall_mem_cons.mpr ⟨⟨_, rfl, .cons ⟨_, hv.note_type, hfit⟩ .nil, rfl⟩,
      List.forall_mem_append.mpr ⟨List.forall_mem_singleton.mpr trivial, ih⟩⟩
  | assignMember _ _ _ _ _ hv hfit ih ih' =>
    exact List.forall_mem_cons.mpr ⟨⟨_, rfl, .cons ⟨_, hv.note_type, hfit⟩ .nil, rfl⟩,
      List.forall_mem_append.mpr ⟨List.forall_mem_cons.mpr ⟨trivial, ih⟩, ih'⟩⟩
  | binary hl hr hid hm _ hfit ih ih' =>
    have hlen := (W.operator_params (hcls ▸ hm)).1 _ rfl
    exact List.forall_mem_cons.mpr
      ⟨⟨_, _, _, AccessLemmas.operatorReceiver_typed hl hid, hm, accepts_single hr hlen hfit, rfl⟩,
        List.forall_mem_append.mpr ⟨ih, ih'⟩⟩
  | unary he _ hm _ ih =>
    have hnone := (W.operator_params (hcls ▸ hm)).2 _ rfl
    exact List.forall_mem_cons.mpr
      ⟨⟨_, _, _, AccessLemmas.receiver_typed he, hm, hnone ▸ .nil, rfl⟩, ih⟩

end AnnotationLemmas

open AnnotationLemmas

/-! ## What lowering asks for -/

namespace Lower

/-- A step of lowering does not fail for want of a type. -/
def Informed {α : Type} (x : Lower α) : Prop := ∀ p s, x.run p ≠ .error (.defect (.untyped s))

namespace Informed

variable {α β : Type}

theorem pure {v : α} : Informed (pure v : Lower α) := nofun

theorem bind {x : Lower α} {f : α → Lower β} (hx : Informed x) (hf : ∀ v, Informed (f v)) :
    Informed (x >>= f) := by
  intro p s h
  rw [StateT.run_bind, bind_eq_error] at h
  rcases h with h | ⟨⟨v, q⟩, _, h⟩
  · exact hx p s h
  · exact hf v q s h

theorem map {x : Lower α} {f : α → β} (hx : Informed x) : Informed (f <$> x) := by
  rw [map_eq_pure_bind]
  exact hx.bind fun _ => .pure

theorem mapM {f : α → Lower β} {as : List α} (hf : ∀ v ∈ as, Informed (f v)) : Informed (as.mapM f) := by
  induction as with
  | nil => exact .pure
  | cons v vs ih =>
    obtain ⟨hv, hvs⟩ := List.forall_mem_cons.mp hf
    rw [List.mapM_cons]
    exact hv.bind fun _ => (ih hvs).bind fun _ => .pure

theorem fail {d : LoweringDefect} (hd : ∀ s, d ≠ .untyped s) : Informed (fail d : Lower α) := by
  intro p s h
  cases h
  exact hd s rfl

theorem lift {x : Except BuildError α} (hx : ∀ s, x ≠ .error (.defect (.untyped s))) :
    Informed (liftM x : Lower α) := by
  intro p s h
  cases x with
  | error e =>
    cases h
    exact hx s rfl
  | ok v => cases h

theorem member {key : MemberKey} : Informed (member key) := nofun

theorem constant {c : Constant} : Informed (constant c) := nofun

end Informed

namespace InformedLemmas

variable {t : ClassTable} {σ : Slots}

theorem typeOf_informed {e : Expr Typing} (h : e.Annotated false) : Informed (typeOf e) := by
  have hself : (e, false) ∈ e.roles false := by cases e <;> simp [Expr.roles]
  obtain ⟨τ, hτ⟩ := Option.isSome_iff_exists.mp (h _ hself)
  rw [LowerableLemmas.typeOf_eq hτ]
  exact .pure

theorem constructOf_informed {id : TypeId} : Informed (constructOf t id) := by
  unfold constructOf
  split
  · exact .pure
  · exact .fail nofun

theorem fieldOffset_informed {id : TypeId} {x : String} : Informed (fieldOffset t id x) := by
  unfold fieldOffset
  split
  · split
    · exact .pure
    · exact .fail nofun
  · exact .fail nofun

theorem number_informed {x : Float} : Informed (number x) := by
  unfold number
  split
  · exact .pure
  · split
    · exact .pure
    · exact .map .constant

theorem testTarget_informed {w : TypeName} : Informed (testTarget t w) := by
  unfold testTarget
  split
  · exact .pure
  · exact .fail nofun

theorem lookup_informed {x : String} : Informed (liftM (σ.lookup x) : Lower Nat) := by
  refine .lift ?_
  unfold Slots.lookup
  split <;> nofun

theorem declare_informed {x : String} : Informed (liftM (σ.declare x) : Lower (Nat × Slots)) := by
  refine .lift ?_
  unfold Slots.declare
  split <;> nofun

mutual

/-- Lowering an expression asks for the types of nodes that are no callees. -/
theorem expr_informed : ∀ {callee : Bool} {e : Expr Typing}, e.Annotated callee → Informed (expr t σ e)
  | _, .number .., _ => number_informed.bind fun _ => .pure
  | _, .string .., _ => .bind .constant fun _ => .pure
  | _, .boolean .., _ | _, .null .., _ | _, .this .., _ | _, .base .., _ => .pure
  | _, .name .., _ => lookup_informed.bind fun _ => .pure
  | _, .member _ _ _, h => by
    obtain ⟨_, ho⟩ := List.forall_mem_cons.mp h
    exact (expr_informed ho).bind fun _ => (typeOf_informed ho).bind fun _ =>
      fieldOffset_informed.bind fun _ => .pure
  | _, .call callee es _, h => by
    obtain ⟨_, h⟩ := List.forall_mem_cons.mp h
    obtain ⟨hcallee, hes⟩ := List.forall_mem_append.mp h
    cases callee with
    | member o _ _ =>
      obtain ⟨_, ho⟩ := List.forall_mem_cons.mp hcallee
      exact .bind .member fun _ => (typeOf_informed ho).bind fun _ => constructOf_informed.bind fun _ =>
        (expr_informed ho).bind fun _ => (exprs_informed hes).bind fun _ => .pure
    | _ => exact .fail nofun
  | _, .new _ es _, h => by
    obtain ⟨_, hes⟩ := List.forall_mem_cons.mp h
    unfold expr
    split
    · exact .fail nofun
    · exact constructOf_informed.bind fun _ => .bind .member fun _ =>
        (exprs_informed hes).bind fun _ => .pure
  | _, .assign target v _, h => by
    obtain ⟨_, h⟩ := List.forall_mem_cons.mp h
    obtain ⟨htarget, hv⟩ := List.forall_mem_append.mp h
    cases target with
    | name _ _ => exact lookup_informed.bind fun _ => (expr_informed hv).bind fun _ => .pure
    | member o _ _ =>
      obtain ⟨_, ho⟩ := List.forall_mem_cons.mp htarget
      exact (typeOf_informed ho).bind fun _ => fieldOffset_informed.bind fun _ =>
        (expr_informed ho).bind fun _ => (expr_informed hv).bind fun _ => .pure
    | _ => exact .fail nofun
  | _, .binary _ l r _, h => by
    obtain ⟨_, h⟩ := List.forall_mem_cons.mp h
    obtain ⟨hl, hr⟩ := List.forall_mem_append.mp h
    refine (typeOf_informed hl).bind fun _ => (typeOf_informed hr).bind fun _ =>
      (expr_informed hl).bind fun _ => (expr_informed hr).bind fun _ => ?_
    split
    · exact .pure
    · refine .bind .member fun _ => constructOf_informed.bind fun _ => ?_
      split
      · exact .pure
      · exact .pure
  | _, .unary _ e _, h => by
    obtain ⟨_, he⟩ := List.forall_mem_cons.mp h
    refine (typeOf_informed he).bind fun _ => (expr_informed he).bind fun _ => ?_
    split
    · exact .pure
    · exact constructOf_informed.bind fun _ => .bind .member fun _ => .pure
  | _, .assert e _, h => by
    obtain ⟨_, he⟩ := List.forall_mem_cons.mp h
    exact (expr_informed he).bind fun _ => .pure
  | _, .instanceTest e _ _, h => by
    obtain ⟨_, he⟩ := List.forall_mem_cons.mp h
    refine (expr_informed he).bind fun _ => testTarget_informed.bind fun τ => ?_
    cases τ with
    | null => exact .pure
    | plain _ | option _ => exact constructOf_informed.bind fun _ => .pure
  | _, .cast e _ _, h => by
    obtain ⟨_, he⟩ := List.forall_mem_cons.mp h
    refine (expr_informed he).bind fun _ => testTarget_informed.bind fun τ => ?_
    cases τ with
    | null => exact .fail nofun
    | plain _ | option _ => exact constructOf_informed.bind fun _ => .pure

theorem exprs_informed : ∀ {es : List (Expr Typing)},
    (∀ n ∈ Expr.rolesList es, n.1.note.type.isSome = !n.2) → Informed (exprs t σ es)
  | [], _ => .pure
  | _ :: _, h => by
    obtain ⟨he, hes⟩ := List.forall_mem_append.mp h
    exact (expr_informed he).bind fun _ => (exprs_informed hes).bind fun _ => .pure

end

mutual

theorem stmt_informed : ∀ {σ : Slots} {start : Nat} {s : Stmt Typing}, (∀ e ∈ s.roots, e.Annotated false) →
    Informed (stmt t σ start s)
  | _, _, .define _ _ e _, h =>
    (expr_informed (List.forall_mem_singleton.mp h)).bind fun _ => declare_informed.bind fun _ => .pure
  | _, _, .return (some e) _, h => (expr_informed (List.forall_mem_singleton.mp h)).bind fun _ => .pure
  | _, _, .return none _, _ => .pure
  | _, _, .ifThen _ _ _, h => by
    obtain ⟨hc, hb⟩ := List.forall_mem_cons.mp h
    exact (expr_informed hc).bind fun _ => (stmt_informed hb).bind fun _ => .pure
  | _, _, .ifElse _ _ _ _, h => by
    obtain ⟨hc, h⟩ := List.forall_mem_cons.mp h
    obtain ⟨hb, ho⟩ := List.forall_mem_append.mp h
    exact (expr_informed hc).bind fun _ => (stmt_informed hb).bind fun _ =>
      (stmt_informed ho).bind fun _ => .pure
  | _, _, .while _ _ _, h => by
    obtain ⟨hc, hb⟩ := List.forall_mem_cons.mp h
    exact (expr_informed hc).bind fun _ => (stmt_informed hb).bind fun _ => .pure
  | _, _, .block _ _, h => (stmts_informed h).bind fun _ => .pure
  | _, _, .expression e _, h => (expr_informed (List.forall_mem_singleton.mp h)).bind fun _ => .pure

theorem stmts_informed : ∀ {σ : Slots} {start : Nat} {ss : List (Stmt Typing)},
    (∀ e ∈ Stmt.rootsList ss, e.Annotated false) → Informed (stmts t σ start ss)
  | _, _, [], _ => .pure
  | _, _, _ :: _, h => by
    obtain ⟨hs, hss⟩ := List.forall_mem_append.mp h
    exact (stmt_informed hs).bind fun _ => (stmts_informed hss).bind fun _ => .pure

end

/-- The slots of parameters can be too many, but they have no types. -/
theorem start_informed {params : List String} :
    Informed (liftM (ChunkBuilder.start params) : Lower ChunkBuilder) := by
  refine .lift ?_
  have hadd (b : ChunkBuilder) : ∀ s, b.addParams params ≠ .error (.defect (.untyped s)) := by
    induction params generalizing b with
    | nil => nofun
    | cons x xs ih =>
      intro s h
      rw [ChunkBuilder.addParams, bind_eq_error] at h
      rcases h with h | ⟨⟨_, b'⟩, _, h⟩
      · unfold ChunkBuilder.declare Slots.declare at h
        split at h <;> cases h
      · exact ih _ s h
  exact hadd _

theorem memberChunk_informed {params : List Param} {before : Slots → Lower (List Instr)}
    {body : Option (Stmt Typing)} (hbefore : ∀ σ, Informed (before σ))
    (hbody : ∀ s ∈ body, ∀ e ∈ s.roots, e.Annotated false) : Informed (memberChunk t params before body) := by
  refine start_informed.bind fun _ => (hbefore _).bind fun _ => ?_
  cases body with
  | none => exact .bind .pure fun _ => .pure
  | some s => exact (stmt_informed (hbody s rfl)).bind fun _ => .pure

theorem fieldInitializer_informed {id : TypeId} {d : FieldDecl Typing}
    (h : ∀ e ∈ (MemberDecl.field d).roots, e.Annotated false) : Informed (fieldInitializer t id d) := by
  unfold fieldInitializer
  split
  · exact .pure
  · next e he =>
    have hroot : e ∈ (MemberDecl.field d).roots := by simp [MemberDecl.roots, he]
    exact fieldOffset_informed.bind fun _ => (expr_informed (h e hroot)).bind fun _ => .pure

theorem baseCall_informed {parent : Nat} {es : List (Expr Typing)} (h : ∀ e ∈ es, e.Annotated false) :
    Informed (baseCall t parent es σ) :=
  (exprs_informed (list_annotated.mpr h)).bind fun _ => .bind .member fun _ => .pure

theorem constructor_informed {parent : Nat} {d : Option (ConstructorDecl Typing)}
    (h : ∀ c ∈ d, ∀ e ∈ (MemberDecl.constructor c).roots, e.Annotated false) :
    Informed (constructor t parent d) := by
  cases d with
  | none =>
    exact (memberChunk_informed (fun _ => baseCall_informed (List.forall_mem_nil _))
      (by rintro _ ⟨⟩)).bind fun _ => .bind .member fun _ => .pure
  | some c =>
    obtain ⟨hargs, hbody⟩ := List.forall_mem_append.mp (h c rfl)
    refine (memberChunk_informed (fun _ => baseCall_informed hargs) ?_).bind fun _ =>
      .bind .member fun _ => .pure
    rintro _ ⟨⟩
    exact hbody

theorem classDecl_informed {id : TypeId} {d : ClassDecl Typing}
    (h : ∀ m ∈ d.members, ∀ e ∈ m.roots, e.Annotated false) : Informed (classDecl t id d) := by
  obtain ⟨hfields, hmethods, hconstructors⟩ := LowerableLemmas.forall_members.mp h
  unfold classDecl
  split
  · exact .fail nofun
  · have hinitializer (parent : Nat) : Informed (initializer t id parent d) :=
      start_informed.bind fun _ => .bind .member fun _ =>
        (Informed.mapM fun fd hfd => fieldInitializer_informed (hfields fd hfd)).bind fun _ => .pure
    have hmethod (md : MethodDecl Typing) (hmd : md ∈ d.methods) : Informed (method t md) :=
      (memberChunk_informed (fun _ => .pure) (by
        rintro _ ⟨⟩
        exact hmethods md hmd)).bind fun _ => .bind .member fun _ => .pure
    exact constructOf_informed.bind fun _ => (hinitializer _).bind fun _ =>
      (Informed.mapM hmethod).bind fun _ => (constructor_informed fun c hc =>
        hconstructors c (List.mem_of_mem_head? hc)).bind fun _ => .pure

theorem classes_informed {id : TypeId} {ds : List (ClassDecl Typing)}
    (h : ∀ d ∈ ds, ∀ m ∈ d.members, ∀ e ∈ m.roots, e.Annotated false) : Informed (classes t id ds) := by
  induction ds generalizing id with
  | nil => exact .pure
  | cons d ds ih =>
    obtain ⟨hd, hds⟩ := List.forall_mem_cons.mp h
    exact (classDecl_informed hd).bind fun _ => (ih hds).bind fun _ => .pure

theorem builtin_informed {c : BuiltinClass} : Informed (builtin c) :=
  (Informed.mapM fun _ _ => .bind .member fun _ => .pure).bind fun _ => .pure

theorem entryConstruct_informed : Informed (entryConstruct t) := by
  unfold entryConstruct
  split
  · nofun
  · split
    · split
      · exact constructOf_informed
      · nofun
    · exact constructOf_informed

end InformedLemmas

open InformedLemmas

/-- Where all nodes but the callees carry types, lowering does not fail for want of one. -/
theorem image_informed {a : Analysis} (h : ∀ e ∈ a.program.roots, e.Annotated false) (s : Span) :
    Lower.image a ≠ .error (.defect (.untyped s)) := by
  have hmembers : ∀ d ∈ a.program.classes, ∀ m ∈ d.members, ∀ e ∈ m.roots, e.Annotated false :=
    fun d hd m hm e he => h e (List.mem_flatMap.mpr ⟨d, hd, List.mem_flatMap.mpr ⟨m, hm, he⟩⟩)
  have hparts : Informed (parts a) := entryConstruct_informed.bind fun _ =>
    (Informed.mapM fun _ _ => builtin_informed).bind fun _ => (classes_informed hmembers).bind fun _ =>
      .bind (.bind .member fun _ => .pure) fun _ => .pure
  intro herror
  rw [Lower.image, bind_eq_error] at herror
  rcases herror with herror | ⟨_, _, herror⟩
  · exact hparts _ s herror
  · cases herror

end Lower

/-- The check of an accepted program changes nothing but that it writes types: at every expression, at any depth and
whether its statement is ever reached or not, except exactly at the callees of calls. The types fit together at
every node, and lowering never fails for want of one. -/
theorem Check.nodes_typed {p : Program Span} {a : Analysis} (h : Check.program p = .ok a) :
    a.program.map Typing.span = p ∧ a.program.roles.map Prod.fst = a.program.nodes ∧
    (∀ n ∈ a.program.roles, n.1.note.type = none ↔ n.2 = true) ∧
    (∀ e ∈ a.program.nodes, e.Coheres a.classes) ∧
    ∀ s, Lower.image a ≠ .error (.defect (.untyped s)) := by
  have W := Check.program_wellTyped h
  have hannotated : ∀ e ∈ a.program.roots, e.Annotated false := by
    intro e he
    obtain ⟨cls, env, result, τ, _, htyped⟩ := W.roots_typed e he
    exact typed_annotated htyped
  refine ⟨Check.program_erased h, a.program.roles_nodes, fun n hn => ?_, fun e he => ?_,
    Lower.image_informed hannotated⟩
  · rw [← Option.not_isSome_iff_eq_none, list_annotated.mpr hannotated n hn]
    simp
  · rw [← a.program.nodes_roots] at he
    obtain ⟨root, hroot, he⟩ := mem_nodesList.mp he
    obtain ⟨cls, env, result, τ, hin, htyped⟩ := W.roots_typed root hroot
    exact typed_coheres W hin.classes htyped e he

/-- Two classes with an initial value, an operator on what may be null, a call that is never reached and arguments
for the parent's constructor. -/
def siblings : Program Span :=
  let name (x : String) : Ident := ⟨x, .none⟩
  let left : Expr Span := .member (.this .none) (name "left") .none
  let other : Expr Span := .name "other" .none
  ⟨[⟨name "Pair", none, [
      .field ⟨.owner, name "left", .optional (name "number") .none, some (.null .none), .none⟩,
      .constructor ⟨.everyone, [⟨name "x", .named (name "number"), .none⟩], none,
        .expression (.assign left (.unary .negate (.name "x" .none) .none) .none) .none, .none⟩,
      .method ⟨.everyone, false, .named (name "same"), [⟨name "other", .named (name "Pair"), .none⟩],
        some (.named (name "boolean")), .block [
          .return (some (.binary .equal left (.member other (name "left") .none) .none)) .none,
          .expression (.call (.member other (name "same") .none) [.this .none] .none) .none] .none, .none⟩],
      .none⟩,
    ⟨name "Twin", some (name "Pair"), [
      .constructor ⟨.everyone, [], some [.binary .add (.number 1 .none) (.number 2 .none) .none],
        .block [] .none, .none⟩,
      .method ⟨.everyone, false, .named (name "twin"), [], some (.named (name "Pair")),
        .return (some (.new (name "Twin") [] .none)) .none, .none⟩], .none⟩], .none⟩

/-- The types at its nodes, with the marks of the callees. The one node without a type is the callee of the call that
is never reached. -/
def siblingTypes : List (Option Ty × Bool) :=
  [(some .null, false),
    (some (.option TypeId.number), false), (some (.option TypeId.number), false), (some (.plain 6), false),
    (some .number, false), (some .number, false),
    (some .boolean, false), (some (.option TypeId.number), false), (some (.plain 6), false),
    (some (.option TypeId.number), false), (some (.plain 6), false),
    (some .boolean, false), (none, true), (some (.plain 6), false), (some (.plain 6), false),
    (some .number, false), (some .number, false), (some .number, false), (some (.plain 7), false)]

theorem siblings_nodes_typed : ∃ a, Check.program siblings = .ok a ∧
    a.program.roles.map (fun n => (n.1.note.type, n.2)) = siblingTypes ∧
    a.program.map Typing.span = siblings ∧ a.program.roles.map Prod.fst = a.program.nodes ∧
    (∀ n ∈ a.program.roles, n.1.note.type = none ↔ n.2 = true) ∧
    (∀ e ∈ a.program.nodes, e.Coheres a.classes) ∧
    ∀ s, Lower.image a ≠ .error (.defect (.untyped s)) := by
  have hcheck : (Check.program siblings).toOption.map (fun a =>
      a.program.roles.map fun n => (n.1.note.type, n.2)) = some siblingTypes := by
    decide +kernel
  obtain ⟨a, ha, htypes⟩ := Option.map_eq_some_iff.mp hcheck
  rw [toOption_eq_some] at ha
  exact ⟨a, ha, htypes, Check.nodes_typed ha⟩

end ClassLang
