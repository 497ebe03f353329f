import ClassLang.Proofs.Promises
import ClassLang.Proofs.Safety

/-!
# Null in checked programs

A type other than an option promises that its values are not null. The check alone does not keep the
promise: a field holds null until something is assigned to it (`uninitialized_kind_fault`). It is kept in
programs that initialize their fields before they are read (`Analysis.initializes`): no run of them faults
for the kind of a value, but only where the program asks for a fault (`Image.run_null_safe`).

Statements and members keep the promises if the calls in them do, and by induction on the depth of calls
all of them do (`invoke_fits`).
-/

namespace ClassLang

/-! ## Statements -/

namespace Scene

/-- A statement goes on to the next one, which one that always returns does not, or ends the body with a
result. -/
def After (K : Scene) (t : ClassTable) (visible : List Binding) (ρ : Ty) (always : Bool)
    (s : EvalState) : Evaluate.Flow → EvalState → Prop
  | .next, s' => always = false ∧ K.Holds t visible s' ∧ Evolves K.raw s.objects s'.objects
  | .returned v, s' => Results t K.raw s ρ v s'

end Scene

section

variable {a : Analysis} {call : Nat → MemberKey → List Value → Eval Value} {K : Scene}
  {visible : List Binding} {raw : Nat → Prop} {s s₀ s' : EvalState} {v w : Value} {τ υ ρ : Ty}
  {always : Bool}

theorem Results.trans (h : Results a.classes raw s ρ v s') (hk : Evolves raw s₀.objects s.objects) :
    Results a.classes raw s₀ ρ v s' :=
  ⟨h.objects, hk.trans h.evolves, h.value⟩

/-- What a part of a statement does, as what the statement does. -/
theorem Scene.After.within {f : Evaluate.Flow} {always' : Bool}
    (h : K.After a.classes visible ρ always s f s') (hk : Evolves K.raw s₀.objects s.objects)
    (halways : always = false → always' = false) : K.After a.classes visible ρ always' s₀ f s' := by
  cases f with
  | next => exact ⟨halways h.1, h.2.1, hk.trans h.2.2⟩
  | returned v => exact Results.trans h hk

/-- An expression of a body, where the receiver is no raw object. -/
theorem bodyExpr_fits (W : WellTyped a) (C : CallsFit a call) (hlimit : K.limit = none)
    (hcls : K.owner < a.classes.size) {env : Environment} (henv : env.Proper a.classes K.owner ρ)
    {e : Expr Typing} (he : Typed env e τ) : ExprFits a call K env.visible e τ :=
  expr_fits W C henv.inside hcls e he (hlimit ▸ Expr.usesReady_none _ e)

/-- A branch, in a scope of its own. -/
theorem branch_fits {x : Eval Evaluate.Flow} {env env' : Environment}
    (hgrows : ∃ inner, env'.visible = inner ++ env.enter.visible)
    (h : K.Holds a.classes env.visible s)
    (hx : Sure (K.After a.classes env'.visible ρ always s) (x s)) :
    Sure (K.After a.classes env.visible ρ always s) (Evaluate.inScope x s) := by
  obtain ⟨inner, hinner⟩ := hgrows
  rw [Environment.visible_enter] at hinner
  rw [hinner] at hx
  refine Sure.map (fun s' => { s' with locals := s'.locals.drop (s'.locals.length - s.locals.length) })
    (hx.mono ?_)
  intro f s' hafter
  cases f with
  | next =>
    obtain ⟨halways, hholds, hk⟩ := hafter
    -- The branch has added the names `inner` in front, and leaving it drops just as many.
    have hdrop : s'.locals.length - s.locals.length = inner.length := by
      rw [List.Forall₂.length_eq hholds.locals, List.Forall₂.length_eq h.locals, List.length_append,
        Nat.add_sub_cancel]
    exact ⟨halways, ⟨hholds.objects, hdrop ▸ hholds.locals.leave, hholds.receiver⟩, hk⟩
  | returned v => exact ⟨hafter.objects, hafter.evolves, hafter.value⟩

theorem condition_fits (W : WellTyped a) {e : Expr Typing}
    (he : ExprFits a call K visible e .boolean) (h : K.Holds a.classes visible s) :
    Sure (fun _ s' => K.Holds a.classes visible s' ∧ Evolves K.raw s.objects s'.objects)
      (Evaluate.condition a.classes call K.owner K.this e s) := by
  refine Sure.bind (he h) ?_
  intro v s₁ hv
  obtain ⟨b, rfl⟩ := hv.holds.objects.boolean W hv.value
  exact .pure ⟨hv.holds, hv.evolves⟩

theorem loop_fits {test : Eval Bool} {round : Eval Evaluate.Flow}
    (htest : ∀ s, K.Holds a.classes visible s → Sure (fun _ s' => K.Holds a.classes visible s' ∧
      Evolves K.raw s.objects s'.objects) (test s))
    (hround : ∀ s, K.Holds a.classes visible s →
      Sure (K.After a.classes visible ρ always s) (round s))
    (bound : Nat) (h : K.Holds a.classes visible s) :
    Sure (K.After a.classes visible ρ false s) (Evaluate.loop test round bound s) := by
  induction bound generalizing s with
  | zero => trivial
  | succ bound ih =>
    refine Sure.bind (htest s h) ?_
    rintro b s₁ ⟨h₁, hk₁⟩
    cases b with
    | false => exact .pure ⟨rfl, h₁, hk₁⟩
    | true =>
      refine Sure.bind (hround s₁ h₁) ?_
      intro f s₂ hafter
      cases f with
      | returned v => exact .pure (Results.trans hafter hk₁)
      | next => exact (ih hafter.2.1).mono fun f s' h => h.within (hk₁.trans hafter.2.2) id

/-- A value that initializes a variable keeps the promise of the variable's type. -/
theorem declared_value_fits (W : WellTyped a) {objects : List Instance} {x : Option TypeName}
    (hdecl : a.classes.Declares x υ τ) (hv : v.Fits a.classes objects raw υ) :
    v.Fits a.classes objects raw τ := by
  cases x with
  | none => exact hdecl.1 ▸ hv
  | some x => exact hv.assign W hdecl.2

mutual

/-- A well-typed statement keeps the promises of types. -/
theorem stmt_fits (W : WellTyped a) (C : CallsFit a call) (hlimit : K.limit = none)
    (hcls : K.owner < a.classes.size) (bound : Nat) :
    ∀ (st : Stmt Typing) {env env' : Environment} {s : EvalState}, env.Proper a.classes K.owner ρ →
      StmtTyped env st env' → K.Holds a.classes env.visible s →
      Sure (K.After a.classes env'.visible ρ st.alwaysReturns s)
        (Evaluate.stmt a.classes call K.owner K.this bound st s)
  | .define x w e span, env, env', s, henv, hst, h => by
    cases hst with
    | define he hdecl _ hbind =>
      rw [henv.inside.classes] at hdecl
      refine Sure.bind (bodyExpr_fits W C hlimit hcls henv he h) ?_
      intro v s₁ hv
      refine .pure ⟨rfl, ⟨hv.holds.objects, ?_, hv.holds.receiver⟩, hv.evolves⟩
      rw [Environment.bind_visible hbind]
      exact .cons ⟨rfl, declared_value_fits W hdecl hv.value⟩ hv.holds.locals
  | .return (some e) span, env, env', s, henv, hst, h => by
    cases hst with
    | «return» he _ hfit =>
      rw [henv.inside.classes, henv.inside.returns] at hfit
      refine Sure.bind (bodyExpr_fits W C hlimit hcls henv he h) ?_
      intro v s₁ hv
      exact .pure ⟨hv.holds.objects, hv.evolves, hv.value.assign W hfit⟩
  | .return none span, env, env', s, henv, hst, h => by
    cases hst with
    | returnNone hunit =>
      rw [henv.inside.returns] at hunit
      exact .pure ⟨h.objects, .refl, .null (by rw [hunit]; rfl)⟩
  | .ifThen c b span, env, env', s, henv, hst, h => by
    cases hst with
    | ifThen he hb =>
      refine Sure.bind (condition_fits W (bodyExpr_fits W C hlimit hcls henv he) h) ?_
      rintro p s₁ ⟨h₁, hk⟩
      cases p with
      | false => exact .pure ⟨rfl, h₁, hk⟩
      | true =>
        obtain ⟨_, hgrows, _⟩ := hb.grows W hcls henv.enter
        exact (branch_fits hgrows h₁
          (stmt_fits W C hlimit hcls bound b henv.enter hb (by simpa using h₁))).mono
          fun f s' hafter => hafter.within hk fun _ => rfl
  | .ifElse c b o span, env, env', s, henv, hst, h => by
    cases hst with
    | ifElse he hb ho =>
      refine Sure.bind (condition_fits W (bodyExpr_fits W C hlimit hcls henv he) h) ?_
      rintro p s₁ ⟨h₁, hk⟩
      cases p with
      | false =>
        obtain ⟨_, hgrows, _⟩ := ho.grows W hcls henv.enter
        exact (branch_fits hgrows h₁
          (stmt_fits W C hlimit hcls bound o henv.enter ho (by simpa using h₁))).mono
          fun f s' hafter => hafter.within hk fun h => by simp [Stmt.alwaysReturns, h]
      | true =>
        obtain ⟨_, hgrows, _⟩ := hb.grows W hcls henv.enter
        exact (branch_fits hgrows h₁
          (stmt_fits W C hlimit hcls bound b henv.enter hb (by simpa using h₁))).mono
          fun f s' hafter => hafter.within hk fun h => by simp [Stmt.alwaysReturns, h]
  | .while c b span, env, env', s, henv, hst, h => by
    cases hst with
    | «while» he hb =>
      obtain ⟨_, hgrows, _⟩ := hb.grows W hcls henv.enter
      exact loop_fits (fun s h => condition_fits W (bodyExpr_fits W C hlimit hcls henv he) h)
        (fun s h => branch_fits hgrows h
          (stmt_fits W C hlimit hcls bound b henv.enter hb (by simpa using h))) bound h
  | .block sts span, env, env', s, henv, hst, h => by
    cases hst with
    | block hsts =>
      exact branch_fits (hsts.grows W hcls henv.enter) h
        (stmts_fit W C hlimit hcls bound sts henv.enter hsts (by simpa using h))
  | .expression e span, env, env', s, henv, hst, h => by
    cases hst with
    | expression he =>
      refine Sure.bind (bodyExpr_fits W C hlimit hcls henv he h) ?_
      intro v s₁ hv
      exact .pure ⟨rfl, hv.holds, hv.evolves⟩

/-- Well-typed statements keep the promises of types. -/
theorem stmts_fit (W : WellTyped a) (C : CallsFit a call) (hlimit : K.limit = none)
    (hcls : K.owner < a.classes.size) (bound : Nat) :
    ∀ (sts : List (Stmt Typing)) {env env' : Environment} {s : EvalState},
      env.Proper a.classes K.owner ρ → StmtsTyped env sts env' → K.Holds a.classes env.visible s →
      Sure (K.After a.classes env'.visible ρ (Stmt.anyReturns sts) s)
        (Evaluate.stmts a.classes call K.owner K.this bound sts s)
  | [], env, env', s, henv, hsts, h => by
    cases hsts
    exact .pure ⟨rfl, h, .refl⟩
  | st :: sts, env, env', s, henv, hsts, h => by
    cases hsts with
    | cons hst hsts =>
      obtain ⟨henv₁, _, _⟩ := hst.grows W hcls henv
      refine Sure.bind (stmt_fits W C hlimit hcls bound st henv hst h) ?_
      intro f s₁ hafter
      cases f with
      | returned v => exact .pure hafter
      | next =>
        obtain ⟨halways, h₁, hk⟩ := hafter
        rw [Stmt.anyReturns, halways, Bool.false_or]
        exact (stmts_fit W C hlimit hcls bound sts henv₁ hsts h₁).mono fun f s' h => h.within hk id

end

/-! ## Methods and constructors -/

/-- Evaluating with local names of its own. -/
theorem inside_fits {x : Eval Value} {locals : List (String × Value)}
    (h : Sure (Results a.classes raw { s with locals } ρ) (x { s with locals })) :
    Sure (Answers a.classes raw s ρ) (Evaluate.inside locals x s) :=
  Sure.map (fun s' => { s' with locals := s.locals })
    (h.mono fun _ _ hr => ⟨⟨hr.objects, hr.evolves, hr.value⟩, rfl⟩)

/-- A body gives what it returns, and null at its end, which only bodies that return nothing come to. -/
theorem result_fits {x : Eval Evaluate.Flow} (hreturns : ρ = .unit ∨ always = true)
    (h : Sure (K.After a.classes visible ρ always s₀) (x s)) :
    Sure (Results a.classes K.raw s₀ ρ) ((do return (← x).result : Eval Value) s) := by
  refine Sure.bind h ?_
  intro f s₁ hafter
  cases f with
  | returned v => exact .pure hafter
  | next =>
    -- The end is not reached if the body always returns, so here the result is of the unit type.
    obtain ⟨halways, hholds, hk⟩ := hafter
    obtain rfl := hreturns.resolve_right (by simp [halways])
    exact .pure ⟨hholds.objects, hk, .null rfl⟩

/-- The parameters hold their arguments. -/
theorem parameters_fit {objects : List Instance} {params : List Param} {types : List Ty}
    {args : List Value} (hlen : types.length = params.length)
    (hargs : ValuesFit a.classes objects raw args types) :
    LocalsFit a.classes objects raw (Evaluate.parameters params args)
      (paramBindings params types) := by
  refine List.rel_reverse ?_
  induction params generalizing types args with
  | nil => exact .nil
  | cons p params ih =>
    cases hargs with
    | nil => cases hlen
    | cons hv hargs => exact .cons ⟨rfl, hv⟩ (ih (Nat.succ.inj hlen) hargs)

/-- The start of a body. -/
theorem Scene.Holds.start {id : Nat} {params : List Param} {types : List Ty} {env : Environment}
    {this : Value} {args : List Value} (hlen : types.length = params.length)
    (hbound : ParamsBound a.classes id ρ params types env) (H : ObjectsFit a.classes raw s.objects)
    (hthis : this.Fits a.classes s.objects raw (.plain id))
    (hargs : ValuesFit a.classes s.objects raw args types) :
    (⟨raw, id, this, none⟩ : Scene).Holds a.classes env.visible
      { s with locals := Evaluate.parameters params args } := by
  refine ⟨H, ?_, hthis⟩
  rw [show env.visible = paramBindings params types from hbound.visible]
  exact parameters_fit hlen hargs

/-- A method that returns a value does so on every path through its body. -/
def MethodDecl.Returns (t : ClassTable) (id : Nat) (d : MethodDecl Typing) : Prop :=
  ∀ r m, t.record? id = some r → r.method? d.name.key = some m →
    m.returns = .unit ∨ d.body.alwaysReturns = true

theorem method_fits (W : WellTyped a) (C : CallsFit a call) {bound id : Nat} {r : ClassRecord}
    {md : MethodDecl Typing} {meth : Method} {this : Value} {args : List Value}
    (hr : a.classes.record? id = some r) (hmd : MethodTyped a.classes id r md)
    (hm : r.method? md.name.key = some meth) (hreturns : md.Returns a.classes id)
    (H : ObjectsFit a.classes raw s.objects) (hthis : this.Fits a.classes s.objects raw (.plain id))
    (hargs : ValuesFit a.classes s.objects raw args meth.params) :
    Sure (Answers a.classes raw s meth.returns)
      (Evaluate.method a.classes call id this bound md args s) := by
  obtain ⟨meth', hm', hlen, _, env, env', hbound, hbody⟩ := hmd
  rw [hm] at hm'
  cases hm'
  have hstart : (⟨raw, id, this, none⟩ : Scene).Holds a.classes env.visible
      { s with locals := Evaluate.parameters md.params args } := .start hlen hbound H hthis hargs
  exact inside_fits (result_fits (hreturns r meth hr hm) (stmt_fits W C rfl
    (ClassTable.lt_of_record hr) bound md.body (hbound.proper (W.params_named hr hm)) hbody hstart))

/-- The call of the parent's constructor, and what comes behind it. -/
theorem baseConstructor_fits (W : WellTyped a) (C : CallsFit a call) {x : Eval Value} {p : Nat}
    {base : Method} {es : List (Expr Typing)} {τs : List Ty} (hlimit : K.limit = none)
    (hp : a.classes.parent? K.owner = some p) (hbase : a.classes.constructor? p = some base)
    (hes : ExprsFit a call K visible es τs) (hfit : a.classes.Fit τs base.params)
    (h : K.Holds a.classes visible s)
    (hx : ∀ s', K.Holds a.classes visible s' → Sure (Results a.classes K.raw s' ρ) (x s')) :
    Sure (Results a.classes K.raw s ρ) ((do
      let args ← Evaluate.exprs a.classes call K.owner K.this es
      let _ ← call p .constructor (K.this :: args)
      x : Eval Value) s) := by
  refine Sure.bind (hes h) ?_
  intro vs s₁ hvs
  have hthis := hvs.holds.this_fits_parent W hlimit hp
  refine Sure.bind (C.method (by simp) (.constructor hbase) hvs.holds.objects (.inl hthis)
    (hvs.values.fit W hfit)) ?_
  intro _ s₂ hret
  have hv := hret.yields hvs.holds hvs.evolves
  exact (hx s₂ hv.holds).mono fun _ _ hr => hr.trans hv.evolves

theorem constructor_fits (W : WellTyped a) (C : CallsFit a call) {bound id p : Nat} {r : ClassRecord}
    {d : ClassDecl Typing} {meth : Method} {this : Value} {args : List Value}
    (hc : ClassTyped a.classes id p r d) (hm : r.method? .constructor = some meth)
    (H : ObjectsFit a.classes raw s.objects) (hthis : this.Fits a.classes s.objects raw (.plain id))
    (hargs : ValuesFit a.classes s.objects raw args meth.params) :
    Sure (Answers a.classes raw s .unit)
      (Evaluate.constructor a.classes call id this bound p d.constructors.head? args s) := by
  have hparent : a.classes.parent? id = some p := hc.parent_eq
  obtain ⟨meth', base, hm', hbase, htyped⟩ := hc.constructor
  rw [hm] at hm'
  cases hm'
  cases hhead : d.constructors.head? with
  | none =>
    rw [hhead] at htyped
    have hstart : (⟨raw, id, this, none⟩ : Scene).Holds a.classes [] { s with locals := [] } :=
      ⟨H, .nil, hthis⟩
    rw [Evaluate.constructor]
    refine inside_fits (baseConstructor_fits W C rfl hparent hbase exprs_nil_fits (htyped.2 ▸ .nil)
      hstart ?_)
    intro s₁ h₁
    exact .pure ⟨h₁.objects, .refl, .null rfl⟩
  | some c =>
    rw [hhead] at htyped
    obtain ⟨hlen, env, env', hbound, ⟨τs, hcount, hτs, hfit⟩, hbody⟩ := htyped
    rw [hbound.inside.classes] at hfit
    have hcls := ClassTable.lt_of_record hc.record
    have hproper := hbound.proper (W.params_named hc.record hm)
    have hstart : (⟨raw, id, this, none⟩ : Scene).Holds a.classes env.visible
        { s with locals := Evaluate.parameters c.params args } := .start hlen hbound H hthis hargs
    have hes := exprs_fit (K := ⟨raw, id, this, none⟩) W C hproper.inside hcls _ hcount hτs
      (Expr.usesReadyAll_none _ _)
    rw [Evaluate.constructor]
    refine inside_fits (baseConstructor_fits W C rfl hparent hbase hes hfit hstart ?_)
    intro s₁ h₁
    exact result_fits (.inl rfl) (stmt_fits W C rfl hcls bound c.body hproper hbody h₁)

/-! ## Field initializers -/

namespace ReadyBelow

variable {objects : List Instance} {i id p n : Nat} {r : ClassRecord} {f : Field}

/-- The own fields of a class lie behind those of the parent. -/
theorem child (W : WellTyped a) (hr : a.classes.record? id = some r)
    (hp : a.classes.parent? id = some p) (hplaced : a.classes.Placed r n)
    (hsub : ∃ o, objects[i]? = some o ∧ a.classes.isSubclass o.classId id = true)
    (h : ReadyBelow a.classes raw i p n objects) : ReadyBelow a.classes raw i id n objects := by
  obtain ⟨hraw, o, ho, _, hfields⟩ := h
  obtain ⟨o', ho', hsub⟩ := hsub
  rw [ho] at ho'
  cases ho'
  refine ⟨hraw, o, ho, hsub, ?_⟩
  rintro owner f ⟨hanc, q, hq, hmem⟩ hlt
  rw [ClassTable.ancestors_link W.rooted hp, List.mem_cons] at hanc
  rcases hanc with rfl | hanc
  · rw [hr] at hq
    cases hq
    obtain ⟨j, hj, rfl⟩ := List.mem_iff_getElem.mp hmem
    have hoffset := hplaced.offsets j _ (List.getElem?_eq_getElem hj)
    omega
  · exact hfields owner f ⟨hanc, q, hq, hmem⟩ hlt

/-- One more field is initialized. -/
theorem next (W : WellTyped a) (hr : a.classes.record? id = some r) (hf : f ∈ r.fields)
    (h : ReadyBelow a.classes raw i id f.offset objects)
    (hfits : ∀ o, objects[i]? = some o → (o.fields id f.name).Fits a.classes objects raw f.type) :
    ReadyBelow a.classes raw i id (f.offset + 1) objects := by
  obtain ⟨hraw, o, ho, hsub, hfields⟩ := h
  refine ⟨hraw, o, ho, hsub, fun owner g hg hlt => ?_⟩
  rcases Nat.lt_succ_iff_lt_or_eq.mp hlt with hlt | heq
  · exact hfields owner g hg hlt
  · obtain ⟨hanc, q, hq, hmem⟩ := hg
    have hid := ClassTable.lt_of_record hr
    have hself := ClassTable.isSubclass_iff.mp (ClassTable.isSubclass_refl hid)
    obtain ⟨rfl, rfl⟩ :=
      ClassTable.offset_injective W.rooted W.placed hid hanc hself hq hr hmem hf heq
    exact hfits o ho

/-- Writing a field initializes it. -/
theorem write (W : WellTyped a) (hr : a.classes.record? id = some r) (hf : f ∈ r.fields)
    (hb : r.isBuiltin = false) (h : ReadyBelow a.classes raw i id f.offset objects)
    (hw : w.Fits a.classes objects raw f.type) :
    ReadyBelow a.classes raw i id (f.offset + 1) (objects.modify i (·.set id f.name w)) := by
  have hk : Keeps objects (objects.modify i (·.set id f.name w)) := .modify _ _ _ _
  obtain ⟨hraw, o, ho, hsub, hfields⟩ := h
  have ho' : (objects.modify i (·.set id f.name w))[i]? = some (o.set id f.name w) := by simp [ho]
  refine next W hr hf ⟨hraw, _, ho', hsub, fun owner g hg hlt => ?_⟩ fun o₁ ho₁ => ?_
  · have hother : ¬ (owner = id ∧ g.name = f.name) := by
      rintro ⟨rfl, hname⟩
      obtain ⟨_, q, hq, hmem⟩ := hg
      rw [hr] at hq
      cases hq
      obtain rfl := W.field_unique hr hmem hf hname hb
      exact Nat.lt_irrefl _ hlt
    simpa [Instance.set, hother] using (hfields owner g hg hlt).keeps hk
  · rw [ho'] at ho₁
    cases ho₁
    simpa [Instance.set] using hw.keeps hk

end ReadyBelow

/-- The field initializers of a class at work on the object `i`, whose fields below the slot `n` are
initialized. -/
def Scene.initializing (raw : Nat → Prop) (i id n : Nat) : Scene := ⟨raw, id, .object i, some n⟩

namespace Scene.Holds

variable {i id n : Nat} {r : ClassRecord} {f : Field}

theorem below (h : (Scene.initializing raw i id n).Holds a.classes visible s) :
    ReadyBelow a.classes raw i id n s.objects := by
  obtain ⟨_, ⟨⟩, hbelow⟩ := h.receiver
  exact hbelow

/-- A field that may be null needs no initializer. -/
theorem skip (W : WellTyped a) (hr : a.classes.record? id = some r) (hf : f ∈ r.fields)
    (hfield : ∀ {c : Nat}, a.classes.isSubclass c id = true → a.classes.HasField c id f)
    (hnull : f.type.admitsNull = true)
    (h : (Scene.initializing raw i id f.offset).Holds a.classes visible s) :
    (Scene.initializing raw i id (f.offset + 1)).Holds a.classes visible s := by
  obtain ⟨o, ho, hsub⟩ := h.below.object
  refine ⟨h.objects, h.locals, i, rfl, h.below.next W hr hf fun o' ho' => ?_⟩
  rw [ho] at ho'
  cases ho'
  exact h.objects.fields i o id f ho (hfield hsub) (.inr hnull)

/-- What an initializer gives is written to its field. -/
theorem fill (W : WellTyped a) (hr : a.classes.record? id = some r) (hf : f ∈ r.fields)
    (hb : r.isBuiltin = false)
    (hfield : ∀ {c : Nat}, a.classes.isSubclass c id = true → a.classes.HasField c id f)
    (hv : v.Fits a.classes s.objects raw f.type)
    (h : (Scene.initializing raw i id f.offset).Holds a.classes visible s) :
    (Scene.initializing raw i id (f.offset + 1)).Holds a.classes visible
      { s with objects := s.objects.modify i (·.set id f.name v) } := by
  obtain ⟨o, ho, hsub⟩ := h.below.object
  have hbuiltin : a.classes.isBuiltin id = false := by simp [ClassTable.isBuiltin, hr, hb]
  have hk : Keeps s.objects (s.objects.modify i (·.set id f.name v)) := .modify _ _ _ _
  exact ⟨h.objects.set W ho (hfield hsub) hbuiltin hv, h.locals.keeps hk, i, rfl,
    h.below.write W hr hf hb hv⟩

end Scene.Holds

/-- The fields that a class declares are initialized one after the other. A field without an initializer
may be null. -/
theorem initializeFields_fit (W : WellTyped a) (C : CallsFit a call) {i id : Nat} {r : ClassRecord}
    (hr : a.classes.record? id = some r) (hb : r.isBuiltin = false) :
    ∀ (ds : List (FieldDecl Typing)) {fs : List Field} {n : Nat} {s : EvalState},
      (∀ d ∈ ds, FieldTyped a.classes id r d ∧ a.classes.initializes id d = true) →
      ds.map (·.name.name) = fs.map (·.name) → fs ⊆ r.fields →
      (∀ (j : Nat) f, fs[j]? = some f → f.offset = n + j) →
      (Scene.initializing raw i id n).Holds a.classes [] s →
      Sure (fun _ s' => (Scene.initializing raw i id (n + ds.length)).Holds a.classes [] s' ∧
          Evolves (fun j => raw j ∧ j ≠ i) s.objects s'.objects)
        (Evaluate.initializeFields a.classes call id (.object i) ds s)
  | [], fs, n, s, _, _, _, _, h => .pure ⟨h, .refl⟩
  | d :: ds, fs, n, s, hds, hnames, hfs, hoffsets, h => by
    obtain ⟨⟨hd, hinit⟩, hds⟩ := List.forall_mem_cons.mp hds
    match fs with
    | f :: fs =>
    rw [List.map_cons, List.map_cons, List.cons.injEq] at hnames
    obtain ⟨hf, hrestFields⟩ := List.cons_subset.mp hfs
    -- The first of the fields has the slot `n`, and is the one that is found under the name.
    obtain rfl : f.offset = n := hoffsets 0 f rfl
    obtain ⟨g, hg, htyped⟩ := hd
    obtain rfl : g = f := by
      refine W.field_unique hr (List.mem_of_find?_eq_some hg) hf ?_ hb
      have hname : g.name = d.name.name := by simpa using List.find?_some hg
      exact hname.trans hnames.1
    have hrest {s₁ : EvalState}
        (h₁ : (Scene.initializing raw i id (g.offset + 1)).Holds a.classes [] s₁)
        (hk : Evolves (fun j => raw j ∧ j ≠ i) s.objects s₁.objects) :
        Sure (fun _ s' =>
            (Scene.initializing raw i id (g.offset + (d :: ds).length)).Holds a.classes [] s' ∧
              Evolves (fun j => raw j ∧ j ≠ i) s.objects s'.objects)
          (Evaluate.initializeFields a.classes call id (.object i) ds s₁) := by
      refine (initializeFields_fit W C hr hb ds hds hnames.2 hrestFields (fun j f' hf' => ?_) h₁).mono ?_
      · rw [hoffsets (j + 1) f' hf']
        omega
      · rintro _ s₂ ⟨h₂, hk₂⟩
        rw [List.length_cons, Nat.add_comm ds.length, ← Nat.add_assoc]
        exact ⟨h₂, hk.trans hk₂⟩
    have hfound := ClassTable.lookupField_own hr hg
    have hfield {c : Nat} (hsub : a.classes.isSubclass c id = true) : a.classes.HasField c id g :=
      (ClassTable.HasField.of_lookup hfound).inherit W.rooted hsub
    rw [ClassTable.initializes, hfound, Option.all_some] at hinit
    rw [Evaluate.initializeFields, hfound]
    cases hsome : d.initializer with
    | none =>
      rw [hsome] at hinit
      exact hrest (h.skip W hr hf hfield hinit) .refl
    | some e =>
      rw [hsome] at hinit
      obtain ⟨υ, he, hfit⟩ := htyped e hsome
      have hexpr := expr_fits (K := .initializing raw i id g.offset) W C ⟨rfl, rfl, rfl⟩
        (ClassTable.lt_of_record hr) e he hinit
      refine Sure.bind (hexpr h) ?_
      intro v s₁ hv
      -- The expression leaves the object `i` as it is and the write does not: only the other raw
      -- objects are frozen for good.
      have hk : Evolves (fun j => raw j ∧ j ≠ i) s₁.objects
          (s₁.objects.modify i (·.set id g.name v)) := by
        refine ⟨.modify _ _ _ _, fun j hj => ?_⟩
        simp [hj.2.symm]
      exact hrest (hv.holds.fill W hr hf hb hfield (hv.value.assign W hfit))
        ((hv.evolves.lower fun _ h => h.1).trans hk)

/-- The fields of a class are entered in the order of the text. -/
theorem ClassTyped.field_names {id p : Nat} {r : ClassRecord} {d : ClassDecl Typing}
    (hc : ClassTyped a.classes id p r d) : d.fields.map (·.name.name) = r.fields.map (·.name) := by
  rw [hc.registered.fields, ClassDecl.fields, List.map_filterMap]
  refine List.filterMap_congr fun m _ => ?_
  cases m <;> rfl

/-- The initializer of a class runs that of its parent and then initializes its own fields. -/
theorem initializer_fits (W : WellTyped a) (C : CallsFit a call) {i id p : Nat} {r : ClassRecord}
    {d : ClassDecl Typing} (hc : ClassTyped a.classes id p r d)
    (hinit : ∀ fd ∈ d.fields, a.classes.initializes id fd = true)
    (H : ObjectsFit a.classes raw s.objects) (hi : ReadyBelow a.classes raw i id 0 s.objects) :
    Sure (fun _ => Initialized a.classes raw i id s) (Evaluate.inside [] (do
      Evaluate.prepare call p (.object i)
      Evaluate.initializeFields a.classes call id (.object i) d.fields
      return .object i : Eval Value) s) := by
  have hparent : a.classes.parent? id = some p := hc.parent_eq
  obtain ⟨start, hplaced⟩ := W.placed id r hc.record
  have hcount := ClassTable.fieldCount_of_placed hc.record hplaced
  have hlength : d.fields.length = r.fields.length := by
    simpa using congrArg List.length hc.field_names
  obtain ⟨hraw, o, ho, hsub, _⟩ := hi
  have hsub' : a.classes.isSubclass o.classId p = true :=
    ClassTable.isSubclass_trans W.rooted hsub (ClassTable.isSubclass_parent W.rooted hparent)
  refine Sure.map (fun s' => { s' with locals := s.locals }) ?_
  refine Sure.bind (prepare_fits (s := { s with locals := [] }) W C hc.inheritable H
    ⟨hraw, o, ho, hsub', fun _ _ _ h => absurd h (Nat.not_lt_zero _)⟩) ?_
  intro _ s₁ h₁
  have hready := h₁.ready
  rw [ClassTable.fieldCount_of_parent hplaced hc.parent] at hready
  have hbelow : ReadyBelow a.classes raw i id start s₁.objects := by
    obtain ⟨o', ho', hid⟩ := h₁.evolves.keeps i o ho
    exact hready.child W hc.record hparent hplaced ⟨o', ho', hid ▸ hsub⟩
  have hfields := initializeFields_fit W C hc.record hc.notBuiltin d.fields
    (fun fd hfd => ⟨hc.fields fd hfd, hinit fd hfd⟩) hc.field_names (List.Subset.refl _)
    hplaced.offsets ⟨h₁.objects, h₁.locals ▸ .nil, i, rfl, hbelow⟩
  refine Sure.bind hfields ?_
  rintro _ s₂ ⟨h₂, hk⟩
  obtain ⟨_, ⟨⟩, hdone⟩ := h₂.receiver
  refine .pure ⟨h₂.objects, h₁.evolves.trans hk, rfl, ?_⟩
  rw [hcount, ← hlength]
  exact hdone

/-! ## Natives -/

/-- The outcome of an operation: a value that keeps the promise of a type, or a deliberate fault. -/
def OutcomeFits (t : ClassTable) (objects : List Instance) (raw : Nat → Prop) (τ : Ty) :
    Except Fault Value → Prop
  | .ok v => v.Fits t objects raw τ
  | .error cause => cause.Deliberate

/-- What a native makes of operands that keep their promises keeps the promise of its method. -/
theorem native_fits (W : WellTyped a) {objects : List Instance} (H : ObjectsFit a.classes raw objects)
    {owner : Nat} {b : BuiltinClass} {bm : BuiltinMethod} {this : Value} {args : List Value}
    (hb : Builtin.classes[owner]? = some b) (hm : bm ∈ b.methods) (hkey : bm.key ≠ .initializer)
    (hthis : this.Receives a.classes objects raw owner)
    (hargs : ValuesFit a.classes objects raw args bm.params) (text : Value → String)
    (console : Console) :
    OutcomeFits a.classes objects raw bm.returns
      (bm.native.apply text console (this :: args)).1 := by
  have hunit : Value.null.Fits a.classes objects raw .unit := .null rfl
  match owner, hb with
  | 0, hb =>
    cases hb
    simp only [Builtin.any, List.mem_cons, List.not_mem_nil, or_false] at hm
    rcases hm with rfl | rfl | rfl | rfl
    · cases hargs
      exact hunit
    · exact absurd rfl hkey
    · obtain _ | ⟨_, _ | _⟩ := hargs
      exact Value.Fits.boolean W _
    · obtain _ | ⟨_, _ | _⟩ := hargs
      exact Value.Fits.boolean W _
  | 1, hb =>
    cases hb
    obtain ⟨x, rfl⟩ := H.number W (hthis.resolve_right fun h => absurd h.1 (by decide))
    have hpair {bm : BuiltinMethod} {ρ : Ty} {ops : List (BinaryOp × Native)}
        (hin : bm ∈ Builtin.numberMethods ρ ops) :
        ∃ o ∈ ops, bm = ⟨.binary o.1, [.number], ρ, o.2⟩ := by
      obtain ⟨o, ho, rfl⟩ := List.mem_map.mp hin
      exact ⟨o, ho, rfl⟩
    simp only [Builtin.number, List.mem_append, List.mem_singleton] at hm
    rcases hm with (hm | hm) | rfl
    · obtain ⟨o, ho, rfl⟩ := hpair hm
      obtain _ | ⟨hw, _ | _⟩ := hargs
      obtain ⟨y, rfl⟩ := H.number W hw
      simp only [List.mem_cons, List.not_mem_nil, or_false] at ho
      rcases ho with rfl | rfl | rfl | rfl | rfl <;> exact Value.Fits.number W _
    · obtain ⟨o, ho, rfl⟩ := hpair hm
      obtain _ | ⟨hw, _ | _⟩ := hargs
      obtain ⟨y, rfl⟩ := H.number W hw
      simp only [List.mem_cons, List.not_mem_nil, or_false] at ho
      rcases ho with rfl | rfl | rfl | rfl <;> exact Value.Fits.boolean W _
    · cases hargs
      exact Value.Fits.number W _
  | 2, hb =>
    cases hb
    obtain ⟨x, rfl⟩ := H.string W (hthis.resolve_right fun h => absurd h.1 (by decide))
    simp only [Builtin.string, List.mem_singleton] at hm
    subst hm
    obtain _ | ⟨_, _ | _⟩ := hargs
    exact Value.Fits.string W _
  | 3, hb =>
    cases hb
    obtain ⟨p, rfl⟩ := H.boolean W (hthis.resolve_right fun h => absurd h.1 (by decide))
    simp only [Builtin.boolean, List.mem_cons, List.not_mem_nil, or_false] at hm
    rcases hm with rfl | rfl | rfl
    · obtain _ | ⟨hw, _ | _⟩ := hargs
      obtain ⟨q, rfl⟩ := H.boolean W hw
      cases p <;> exact Value.Fits.boolean W _
    · obtain _ | ⟨hw, _ | _⟩ := hargs
      obtain ⟨q, rfl⟩ := H.boolean W hw
      cases p <;> exact Value.Fits.boolean W _
    · cases hargs
      exact Value.Fits.boolean W _
  | 4, hb =>
    cases hb
    simp only [Builtin.console, List.mem_cons, List.not_mem_nil, or_false] at hm
    rcases hm with rfl | rfl | rfl
    · cases hargs
      exact hunit
    · obtain _ | ⟨_, _ | _⟩ := hargs
      exact hunit
    · cases hargs
      simp only [Native.apply, Console.readLine]
      split
      · exact Value.Fits.string W _
      · exact Value.Fits.string W _
      · trivial
  | n + 5, hb => cases hb

/-! ## All members -/

/-- A program whose fields are initialized before they are read, and whose methods return what they
promise. -/
structure NullSafe (a : Analysis) : Prop where
  wellTyped : WellTyped a
  fields : a.initializes = true
  methods : ∀ (i : Nat) d, a.program.classes[i]? = some d → ∀ md ∈ d.methods,
    md.Returns a.classes (TypeId.first + i)

/-- A call of a native. -/
theorem nativeCall_fits (W : WellTyped a) {owner : Nat} {b : BuiltinClass} {bm : BuiltinMethod}
    {σ : List Ty} {this : Value} {args : List Value} (hb : Builtin.classes[owner]? = some b)
    (hm : bm ∈ b.methods) (hkey : bm.key ≠ .initializer) (hsig : Signature a.classes owner bm.key σ ρ)
    (H : ObjectsFit a.classes raw s.objects) (hthis : this.Receives a.classes s.objects raw owner)
    (hargs : ValuesFit a.classes s.objects raw args σ) :
    Sure (Answers a.classes raw s ρ) (Evaluate.native a.classes bm.native (this :: args) s) := by
  obtain ⟨_, rfl, rfl⟩ := (CallsLemmas.builtin_signature W hb hm hsig).resolve_left
    fun h => hkey h.1
  have hout := native_fits W H hb hm hkey hthis hargs (Value.display a.classes s.objects) s.console
  rw [Evaluate.native]
  generalize bm.native.apply (Value.display a.classes s.objects) s.console (this :: args) = result at hout
  obtain ⟨outcome, console⟩ := result
  cases outcome with
  | ok v => exact ⟨⟨H, .refl, hout⟩, rfl⟩
  | error cause => exact hout

/-- What a declared class has under a key keeps its promises. -/
theorem declared_fits (N : NullSafe a) (C : CallsFit a call) {bound i id p : Nat} {r : ClassRecord}
    {d : ClassDecl Typing} {key : MemberKey} {σ : List Ty} {this : Value} {args : List Value}
    (hd : a.program.classes[i]? = some d) (hid : id = TypeId.first + i)
    (hc : ClassTyped a.classes id p r d) (hkey : key ≠ .initializer)
    (hsig : Signature a.classes id key σ ρ) (H : ObjectsFit a.classes raw s.objects)
    (hthis : this.Fits a.classes s.objects raw (.plain id))
    (hargs : ValuesFit a.classes s.objects raw args σ) :
    Sure (Answers a.classes raw s ρ)
      (Evaluate.declared a.classes call id this bound p d key args s) := by
  cases hsig with
  | initializer => exact absurd rfl hkey
  | constructor hctor =>
    rw [ClassTable.constructor?, hc.record, Option.bind_some] at hctor
    exact constructor_fits N.wellTyped C hc hctor H hthis hargs
  | @method r' key m hr hm hinh =>
    rw [hc.record] at hr
    cases hr
    have hbody : key ≠ .constructor := by
      rintro rfl
      cases hinh
    unfold Evaluate.declared
    split
    · exact absurd rfl hkey
    · exact absurd rfl hbody
    · cases hfind : d.methods.find? (·.name.key == key) with
      | none => trivial
      | some md =>
        have hmd := List.mem_of_find?_eq_some hfind
        obtain rfl : md.name.key = key := by simpa using List.find?_some hfind
        exact method_fits N.wellTyped C hc.record (hc.methods md hmd) hm
          (hid ▸ N.methods i d hd md hmd) H hthis hargs

/-- The declaration of a class that evaluation finds members in. -/
theorem WellTyped.declared_class (W : WellTyped a) {owner p : Nat} {d : ClassDecl Typing}
    (hb : Builtin.classes[owner]? = none) (hd : a.program.classes[owner - TypeId.first]? = some d)
    (hp : a.classes.parent? owner = some p) :
    ∃ i r, owner = TypeId.first + i ∧ a.program.classes[i]? = some d ∧
      ClassTyped a.classes owner p r d := by
  rcases W.class_cases (ClassTable.lt_of_parent hp) with ⟨b, hb'⟩ | rfl | ⟨i, d', q, r, rfl, hd', hc⟩
  · rw [hb] at hb'
    cases hb'
  · rw [W.unit_parent] at hp
    cases hp
  · rw [Nat.add_sub_cancel_left, hd'] at hd
    cases hd
    rw [hc.parent_eq] at hp
    cases hp
    exact ⟨i, r, rfl, hd', hc⟩

/-- Members keep their promises if the calls in them do. -/
theorem memberCalls_fit (N : NullSafe a) (C : CallsFit a call) (bound : Nat) :
    CallsFit a (Evaluate.member a call bound) := by
  have W := N.wellTyped
  constructor
  · intro raw owner key σ ρ this args s hkey hsig H hthis hargs
    unfold Evaluate.member
    cases hb : Builtin.classes[owner]? with
    | some b =>
      cases hfind : b.methods.find? (·.key == key) with
      | none =>
        simp only [hfind]
        trivial
      | some bm =>
        simp only [hfind]
        obtain rfl : bm.key = key := by simpa using List.find?_some hfind
        exact nativeCall_fits W hb (List.mem_of_find?_eq_some hfind) hkey hsig H hthis hargs
    | none =>
      cases hd : a.program.classes[owner - TypeId.first]? with
      | none => trivial
      | some d =>
        cases hp : a.classes.parent? owner with
        | none => trivial
        | some p =>
          obtain ⟨i, r, hid, hd', hc⟩ := W.declared_class hb hd hp
          have hthis' := hthis.resolve_right fun h => by
            rw [h.1] at hb
            cases hb
          exact declared_fits N C hd' hid hc hkey hsig H hthis' hargs
  · intro raw i id s hu H hi
    have hb : Builtin.classes[id]? = none :=
      List.getElem?_eq_none (Nat.le_trans (by decide) (Nat.le_of_not_lt hu))
    unfold Evaluate.member
    rw [hb]
    cases hd : a.program.classes[id - TypeId.first]? with
    | none => trivial
    | some d =>
      cases hp : a.classes.parent? id with
      | none => trivial
      | some p =>
        obtain ⟨j, r, rfl, hd', hc⟩ := W.declared_class hb hd hp
        exact initializer_fits W C hc (Analysis.initializes_iff.mp N.fields j d hd') H hi

/-- Calls of any depth keep their promises. -/
theorem invoke_fits (N : NullSafe a) : ∀ n, CallsFit a (Evaluate.invoke a n)
  | 0 => ⟨fun _ _ _ _ _ _ _ _ _ _ _ _ _ => trivial, fun _ _ _ _ _ _ _ => trivial⟩
  | n + 1 => memberCalls_fit N (invoke_fits N n) n

end

/-! ## Methods that return a value -/

namespace Check

mutual

/-- The check keeps whether a statement always returns. -/
theorem stmt_alwaysReturns : ∀ (env : Environment) (st : Stmt Span),
    (stmt env st).value.alwaysReturns = st.alwaysReturns
  | _, .define .. | _, .return .. | _, .ifThen .. | _, .while .. | _, .expression .. => rfl
  | env, .ifElse c b o span => by
    simp only [stmt, Stmt.alwaysReturns, stmt_alwaysReturns env.enter b, stmt_alwaysReturns env.enter o]
  | env, .block sts span => by
    simp only [stmt, Stmt.alwaysReturns, stmts_anyReturns env.enter sts]

theorem stmts_anyReturns : ∀ (env : Environment) (sts : List (Stmt Span)),
    Stmt.anyReturns (stmts env sts).value = Stmt.anyReturns sts
  | _, [] => rfl
  | env, st :: sts => by
    simp only [stmts, Stmt.anyReturns, stmt_alwaysReturns env st, stmts_anyReturns _ sts]

end

theorem methodDecl_returns {t : ClassTable} {id : Nat} {d : MethodDecl Span}
    (h : (methodDecl t id d).2 = []) : (methodDecl t id d).1.Returns t id := by
  intro r m hr hm
  have hname : (methodDecl t id d).1.name = d.name := by
    simp only [methodDecl, methodIn, Checked.report, Environment.outside_classes]
    split
    · rfl
    · split <;> rfl
  rw [hname] at hm
  simp only [methodDecl, methodIn, Checked.report, Environment.outside_classes] at h ⊢
  simp only [hr, Option.bind_some, hm] at h ⊢
  cases hov : overrides t id m d with
  | error e => simp [hov] at h
  | ok u =>
    simp only [hov, List.append_eq_nil_iff] at h ⊢
    have hfalls := h.2
    rw [stmt_alwaysReturns]
    by_cases hunit : m.returns = .unit
    · exact .inl hunit
    · right
      simpa [hunit] using hfalls

/-- In a program that passes the check, methods return what they promise. -/
theorem program_returns {p : Program Span} {a : Analysis} (h : program p = .ok a) (i : Nat)
    {d : ClassDecl Typing} (hd : a.program.classes[i]? = some d) {md : MethodDecl Typing}
    (hmd : md ∈ d.methods) : md.Returns a.classes (TypeId.first + i) := by
  obtain ⟨hbuild, entered, t, hlist, rfl, hchecked⟩ := program_ok h
  obtain ⟨rfl, _⟩ := entered_ok hbuild hlist
  simp only [List.getElem?_map, Option.map_eq_some_iff] at hd
  obtain ⟨_, ⟨⟨id, d'⟩, hget, rfl⟩, rfl⟩ := hd
  obtain ⟨h₁, h₂⟩ := List.getElem?_zip_eq_some.mp hget
  obtain ⟨_, hid⟩ := List.getElem?_eq_some_iff.mp h₁
  obtain rfl : id = TypeId.first + i := by simpa using hid.symm
  have hnone := hchecked _ (List.mem_map_of_mem (List.mem_of_getElem? hget))
  simp only [classDecl_eq, checked_members, ClassDecl.methods, List.mem_filterMap, List.mem_map] at hmd
  obtain ⟨_, ⟨m, hm, rfl⟩, hmd⟩ := hmd
  simp only [classDecl_eq, List.append_eq_nil_iff, List.flatMap_eq_nil_iff, List.mem_map] at hnone
  have herrors : (member t.layout (TypeId.first + i) m).2 = [] :=
    hnone.1 _ ⟨(m, true), ⟨m, hm, rfl⟩, rfl⟩
  cases m with
  | method decl =>
    cases hmd
    exact methodDecl_returns herrors
  | field _ | constructor _ => cases hmd

end Check

/-! ## Programs -/

theorem NullSafe.of_check {p : Program Span} {a : Analysis} (h : Check.program p = .ok a)
    (hfields : a.initializes = true) : NullSafe a :=
  ⟨Check.program_wellTyped h, hfields, fun i _ hd _ hmd => Check.program_returns h i hd hmd⟩

/-- The evaluation of a program, from no objects at all. -/
theorem main_fits {a : Analysis} {image : Image} (N : NullSafe a) (A : Assembled a image) (n : Nat)
    (console : Console) : Sure (fun _ _ => True) (a.main n ⟨[], console, []⟩) := by
  have W := N.wellTyped
  have C := invoke_fits N n
  obtain ⟨id, E⟩ := A.entry
  obtain ⟨meth, hctor, hparams⟩ := E.constructor W
  have hempty : ObjectsFit a.classes (fun _ => False) [] :=
    ⟨fun _ _ ho => by simp at ho, fun _ h => h.elim, fun _ _ _ _ ho => by simp at ho⟩
  rw [Analysis.main, E.found]
  refine Sure.bind (instantiate_fits W C (W.constructor_inheritable hctor) hempty) ?_
  intro o s₁ hnew
  exact (C.method (by simp) (.constructor hctor) hnew.objects (.inl hnew.value)
    (hparams ▸ .nil)).mono fun _ _ _ => trivial

/-- A program that initializes its fields before they are read keeps all promises about null: what its
runs fault for are assertions and casts that fail and input that is no text, and never the kind of a
value. -/
theorem Image.run_null_safe {source : String} {a : Analysis} {image : Image}
    (ha : Analysis.ofSource source = .ok a) (himage : Image.ofSource source = .ok image)
    (hinit : a.initializes = true) (bound : Nat) (console : Console) :
    match image.run bound console with
    | .faulted cause _ => cause.Deliberate ∧ ∀ f, cause ≠ .kind f
    | .halted _ _ _ | .unfinished _ => True := by
  obtain ⟨p, _, hp, ha', hcheck, hlower⟩ := Image.ofSource_stages himage
  cases ha.symm.trans ha'
  have N := NullSafe.of_check hcheck hinit
  have A := Lower.image_assembled hlower
  cases hrun : image.run bound console with
  | unfinished m => trivial
  | halted v heap c => trivial
  | faulted cause c =>
    have hend : a.evaluate (bound + 1) console = some (.fault cause c) :=
      evaluate_of_ending N.wellTyped A (by rw [hrun]; rfl) (Nat.lt_succ_self bound)
    have hsure := main_fits N A (bound + 1) console
    rw [Analysis.evaluate] at hend
    generalize a.main (bound + 1) ⟨[], console, []⟩ = result at hend hsure
    obtain ⟨outcome, s⟩ := result
    cases outcome with
    | ok v => cases hend
    | error stop =>
      cases stop with
      | stuck | unfinished => cases hend
      | fault cause' =>
        cases hend
        refine ⟨hsure, ?_⟩
        rintro f rfl
        exact hsure

/-- A program whose second initializer reads the first field, and which asserts that a field is not null
that may be. -/
def orderly : String :=
  "class Main\n\x7b\n public b: boolean = true\n public c: boolean = !this.b\n public o: Main?\n" ++
  " public new()\n \x7b\n this.o!\n \x7d\n\x7d\n"

theorem orderly_run_null_safe : ∃ a image console, Analysis.ofSource orderly = .ok a ∧
    Image.ofSource orderly = .ok image ∧ a.initializes = true ∧
    image.run 100 (.ofText "") = .faulted .nullAssertion console ∧
    match image.run 100 (.ofText "") with
    | .faulted cause _ => cause.Deliberate ∧ ∀ f, cause ≠ .kind f
    | .halted _ _ _ | .unfinished _ => True := by
  have hall : (Analysis.ofSource orderly).toOption.any (fun a => a.initializes &&
      (Lower.image a).toOption.any fun image => match image.run 100 (.ofText "") with
        | .faulted .nullAssertion _ => true
        | _ => false) = true := by decide +kernel
  cases ha : Analysis.ofSource orderly with
  | error e =>
    rw [ha] at hall
    cases hall
  | ok a =>
    rw [ha] at hall
    simp only [Except.toOption, Option.any_some, Bool.and_eq_true] at hall
    obtain ⟨hinit, hrun⟩ := hall
    cases hl : Lower.image a with
    | error e =>
      rw [hl] at hrun
      cases hrun
    | ok image =>
      have himage : Image.ofSource orderly = .ok image := by
        rw [Image.ofSource, ha]
        simp [bind, Except.bind, hl, Except.mapError]
      rw [hl] at hrun
      simp only [Option.any_some] at hrun
      split at hrun
      · next console hfault =>
        exact ⟨a, image, console, rfl, himage, hinit, hfault,
          Image.run_null_safe ha himage hinit 100 _⟩
      · cases hrun

/-- The field of `uninitialized` is of type `number`, and yet a run negates null: nothing makes sure that
a field is initialized. -/
theorem uninitialized_kind_fault : ∃ image console, Image.ofSource uninitialized = .ok image ∧
    image.run 100 (.ofText "") = .faulted (.kind (.unexpected .number .null)) console := by
  obtain ⟨image, himage, console, hrun⟩ := uninitialized_faults
  exact ⟨image, console, himage, hrun⟩

end ClassLang
