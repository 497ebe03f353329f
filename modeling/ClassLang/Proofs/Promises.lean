import ClassLang.Proofs.Expressions
import ClassLang.Proofs.Initialization

/-!
# Expressions that keep the promises of types

The evaluation of a well-typed expression ends with a value of its type, which is null only if the type
admits that, or it faults deliberately (`expr_fits`). Calls are assumed to do the same (`CallsFit`), and
of the receiver nothing is read that is not initialized yet (`Expr.usesReady`). There is one lemma for
each form of expression, from what is known about its parts.
-/

namespace ClassLang

/-- The raw object `i`, taken as one of the class `id`, has its fields in the slots below `n`
initialized. -/
def ReadyBelow (t : ClassTable) (raw : Nat → Prop) (i id n : Nat) (objects : List Instance) : Prop :=
  raw i ∧ ∃ o, objects[i]? = some o ∧ t.isSubclass o.classId id = true ∧
    ∀ owner f, t.HasField id owner f → f.offset < n →
      (o.fields owner f.name).Fits t objects raw f.type

theorem ReadyBelow.object {t : ClassTable} {raw : Nat → Prop} {i id n : Nat} {objects : List Instance}
    (h : ReadyBelow t raw i id n objects) :
    ∃ o, objects[i]? = some o ∧ t.isSubclass o.classId id = true :=
  let ⟨_, o, ho, hsub, _⟩ := h
  ⟨o, ho, hsub⟩

theorem ReadyBelow.evolves {t : ClassTable} {raw : Nat → Prop} {i id n : Nat}
    {objects objects' : List Instance} (h : ReadyBelow t raw i id n objects)
    (he : Evolves raw objects objects') : ReadyBelow t raw i id n objects' := by
  obtain ⟨hraw, o, ho, hsub, hfields⟩ := h
  exact ⟨hraw, o, (he.frozen i hraw).trans ho, hsub,
    fun owner f hf hlt => (hfields owner f hf hlt).keeps he.keeps⟩

/-- A member at work: the raw objects, the class that it belongs to, its receiver, and for a raw receiver
the slot below which its fields are initialized. -/
structure Scene where
  raw : Nat → Prop
  owner : Nat
  this : Value
  limit : Option Nat

namespace Scene

/-- The receiver is of its class, and initialized as far as the limit tells. -/
def Ready (K : Scene) (t : ClassTable) (objects : List Instance) : Prop :=
  match K.limit with
  | none => K.this.Fits t objects K.raw (.plain K.owner)
  | some n => ∃ i, K.this = .object i ∧ ReadyBelow t K.raw i K.owner n objects

/-- Objects, local names and the receiver keep the promises of their types. -/
structure Holds (K : Scene) (t : ClassTable) (visible : List Binding) (s : EvalState) : Prop where
  objects : ObjectsFit t K.raw s.objects
  locals : LocalsFit t s.objects K.raw s.locals visible
  receiver : K.Ready t s.objects

/-- An evaluation from the state `s` ends with a value of type `τ`. -/
structure Yields (K : Scene) (t : ClassTable) (visible : List Binding) (s : EvalState) (τ : Ty)
    (v : Value) (s' : EvalState) : Prop where
  holds : K.Holds t visible s'
  evolves : Evolves K.raw s.objects s'.objects
  value : v.Fits t s'.objects K.raw τ

end Scene

/-- Values that keep the promises of types. -/
def ValuesFit (t : ClassTable) (objects : List Instance) (raw : Nat → Prop) (vs : List Value)
    (τs : List Ty) : Prop :=
  List.Forall₂ (fun v τ => v.Fits t objects raw τ) vs τs

/-- An evaluation from the state `s` ends with values of the types `τs`. -/
structure Scene.YieldsAll (K : Scene) (t : ClassTable) (visible : List Binding) (s : EvalState)
    (τs : List Ty) (vs : List Value) (s' : EvalState) : Prop where
  holds : K.Holds t visible s'
  evolves : Evolves K.raw s.objects s'.objects
  values : ValuesFit t s'.objects K.raw vs τs

/-- The result of a body. -/
structure Results (t : ClassTable) (raw : Nat → Prop) (s : EvalState) (ρ : Ty) (v : Value)
    (s' : EvalState) : Prop where
  objects : ObjectsFit t raw s'.objects
  evolves : Evolves raw s.objects s'.objects
  value : v.Fits t s'.objects raw ρ

/-- The result of a call, which leaves the local names of the caller as they are. -/
structure Answers (t : ClassTable) (raw : Nat → Prop) (s : EvalState) (ρ : Ty) (v : Value)
    (s' : EvalState) : Prop extends Results t raw s ρ v s' where
  locals : s'.locals = s.locals

/-- The raw object `i` has all the fields initialized that it has as one of the class `id`. -/
structure Initialized (t : ClassTable) (raw : Nat → Prop) (i id : Nat) (s s' : EvalState) :
    Prop where
  objects : ObjectsFit t raw s'.objects
  evolves : Evolves (fun j => raw j ∧ j ≠ i) s.objects s'.objects
  locals : s'.locals = s.locals
  ready : ReadyBelow t raw i id (t.fieldCount id) s'.objects

/-- A value that a method of the class `owner` may be called on. Equality, which the root has, may be
called on null. -/
def Value.Receives (t : ClassTable) (objects : List Instance) (raw : Nat → Prop) (v : Value)
    (owner : Nat) : Prop :=
  v.Fits t objects raw (.plain owner) ∨ owner = TypeId.any ∧ v = .null

/-- Calls keep the promises of signatures, and field initializers leave nothing raw behind. -/
structure CallsFit (a : Analysis) (call : Nat → MemberKey → List Value → Eval Value) : Prop where
  method : ∀ ⦃raw : Nat → Prop⦄ ⦃owner : Nat⦄ ⦃key : MemberKey⦄ ⦃σ : List Ty⦄ ⦃ρ : Ty⦄ ⦃this : Value⦄
    ⦃args : List Value⦄ ⦃s : EvalState⦄, key ≠ .initializer → Signature a.classes owner key σ ρ →
    ObjectsFit a.classes raw s.objects → this.Receives a.classes s.objects raw owner →
    ValuesFit a.classes s.objects raw args σ →
    Sure (Answers a.classes raw s ρ) (call owner key (this :: args) s)
  initializer : ∀ ⦃raw : Nat → Prop⦄ ⦃i id : Nat⦄ ⦃s : EvalState⦄, ¬ id < TypeId.first →
    ObjectsFit a.classes raw s.objects → ReadyBelow a.classes raw i id 0 s.objects →
    Sure (fun _ => Initialized a.classes raw i id s) (call id .initializer [.object i] s)

/-- The evaluation of an expression keeps the promise of the type. -/
def ExprFits (a : Analysis) (call : Nat → MemberKey → List Value → Eval Value) (K : Scene)
    (visible : List Binding) (e : Expr Typing) (τ : Ty) : Prop :=
  ∀ ⦃s : EvalState⦄, K.Holds a.classes visible s →
    Sure (K.Yields a.classes visible s τ) (Evaluate.expr a.classes call K.owner K.this e s)

/-- The evaluation of expressions one after the other keeps the promises of the types. -/
def ExprsFit (a : Analysis) (call : Nat → MemberKey → List Value → Eval Value) (K : Scene)
    (visible : List Binding) (es : List (Expr Typing)) (τs : List Ty) : Prop :=
  ∀ ⦃s : EvalState⦄, K.Holds a.classes visible s →
    Sure (K.YieldsAll a.classes visible s τs) (Evaluate.exprs a.classes call K.owner K.this es s)

section

variable {a : Analysis} {call : Nat → MemberKey → List Value → Eval Value} {K : Scene}
  {visible : List Binding} {raw : Nat → Prop} {s s₀ s' : EvalState} {v w : Value} {τ υ ρ : Ty}

namespace ValuesFit

variable {objects objects' : List Instance} {vs : List Value} {τs σs : List Ty}

theorem keeps (h : ValuesFit a.classes objects raw vs τs) (hk : Keeps objects objects') :
    ValuesFit a.classes objects' raw vs τs :=
  h.imp fun _ _ hv => hv.keeps hk

theorem fit (W : WellTyped a) (h : ValuesFit a.classes objects raw vs τs)
    (hfit : a.classes.Fit τs σs) : ValuesFit a.classes objects raw vs σs := by
  unfold ValuesFit ClassTable.Fit at *
  induction h generalizing σs with
  | nil => cases hfit; exact .nil
  | cons hv _ ih =>
    cases hfit with
    | cons hτ hrest => exact .cons (hv.assign W hτ) (ih hrest)

end ValuesFit

namespace Scene

theorem Holds.evolve (h : K.Holds a.classes visible s) (H : ObjectsFit a.classes K.raw s'.objects)
    (he : Evolves K.raw s.objects s'.objects) (hl : s'.locals = s.locals) :
    K.Holds a.classes visible s' := by
  refine ⟨H, hl ▸ h.locals.keeps he.keeps, ?_⟩
  have hready := h.receiver
  unfold Ready at hready ⊢
  split
  · next hnone =>
    rw [hnone] at hready
    exact hready.keeps he.keeps
  · next n hsome =>
    rw [hsome] at hready
    obtain ⟨i, hi, hbelow⟩ := hready
    exact ⟨i, hi, hbelow.evolves he⟩

/-- Without a limit the receiver is no raw object. -/
theorem Holds.this_fits (h : K.Holds a.classes visible s) (hlimit : K.limit = none) :
    K.this.Fits a.classes s.objects K.raw (.plain K.owner) := by
  have hready := h.receiver
  rwa [Ready, hlimit] at hready

theorem Holds.this_fits_parent (W : WellTyped a) (h : K.Holds a.classes visible s)
    (hlimit : K.limit = none) {p : Nat} (hp : a.classes.parent? K.owner = some p) :
    K.this.Fits a.classes s.objects K.raw (.plain p) :=
  (h.this_fits hlimit).assign W
    (show a.classes.isAssignable (.plain K.owner) (.plain p) = true from
      ClassTable.isSubclass_parent W.rooted hp)

end Scene

/-- The caller behind a call. -/
theorem Answers.yields (ha : Answers a.classes K.raw s ρ v s') (h : K.Holds a.classes visible s)
    (hk : Evolves K.raw s₀.objects s.objects) : K.Yields a.classes visible s₀ ρ v s' :=
  ⟨h.evolve ha.objects ha.evolves ha.locals, hk.trans ha.evolves, ha.value⟩

/-! ## Names and literals -/

theorem number_fits (W : WellTyped a) {x : Float} {ν : Typing} :
    ExprFits a call K visible (.number x ν) .number := fun _ h =>
  .pure ⟨h, .refl, .number W x⟩

theorem string_fits (W : WellTyped a) {c : String} {ν : Typing} :
    ExprFits a call K visible (.string c ν) .string := fun _ h =>
  .pure ⟨h, .refl, .string W c⟩

theorem boolean_fits (W : WellTyped a) {b : Bool} {ν : Typing} :
    ExprFits a call K visible (.boolean b ν) .boolean := fun _ h =>
  .pure ⟨h, .refl, .boolean W b⟩

theorem null_fits {ν : Typing} : ExprFits a call K visible (.null ν) .null := fun _ h =>
  .pure ⟨h, .refl, .null rfl⟩

theorem name_fits {x : String} {ν : Typing}
    (hτ : (visible.find? (·.name == x)).map (·.type) = some τ) :
    ExprFits a call K visible (.name x ν) τ := by
  intro s h
  obtain ⟨v, hv, hfits⟩ := h.locals.lookup hτ
  have heval : Evaluate.expr a.classes call K.owner K.this (.name x ν) s = (pure v : Eval Value) s := by
    simp [Evaluate.expr, Evaluate.load, Eval.state, bind, hv]
  rw [heval]
  exact .pure ⟨h, .refl, hfits⟩

variable (call) in
/-- `this` and a bare `base` are the receiver, which is of the class of the member and of its parent. -/
theorem Typed.receiver (W : WellTyped a) {env : Environment} {result : Ty} {e : Expr Typing} {id : Nat}
    (hin : env.Inside a.classes K.owner result) (hcls : K.owner < a.classes.size)
    (hrec : e.isReceiver = true) (he : Typed env e (.plain id)) :
    Evaluate.expr a.classes call K.owner K.this e = pure K.this ∧
      a.classes.isSubclass K.owner id = true := by
  cases e with
  | this ν =>
    cases he with
    | this hid =>
      rw [hin.thisClass] at hid
      cases hid
      exact ⟨rfl, ClassTable.isSubclass_refl hcls⟩
  | base ν =>
    cases he with
    | base hid hp =>
      rw [hin.thisClass] at hid
      cases hid
      rw [hin.classes] at hp
      exact ⟨rfl, ClassTable.isSubclass_parent W.rooted hp⟩
  | _ => cases hrec

theorem receiver_fits (W : WellTyped a) {e : Expr Typing} {id : Nat}
    (he : Evaluate.expr a.classes call K.owner K.this e = pure K.this)
    (hsub : a.classes.isSubclass K.owner id = true) (hlimit : K.limit = none) :
    ExprFits a call K visible e (.plain id) := by
  intro s h
  rw [he]
  exact .pure ⟨h, .refl, (h.this_fits hlimit).assign W hsub⟩

/-! ## Fields and assignments -/

theorem member_fits (W : WellTyped a) {e : Expr Typing} {x : Ident} {ν : Typing} {id owner : Nat}
    {f : Field} (he : ExprFits a call K visible e (.plain id)) (hnote : e.note.type = some (.plain id))
    (hne : id ≠ TypeId.unit) (hf : a.classes.lookupField? id x.name = some (owner, f)) :
    ExprFits a call K visible (.member e x ν) f.type := by
  intro s h
  refine Sure.bind (he h) ?_
  intro v s₁ hv
  rw [fieldOf_eq hnote hf]
  show Sure _ (Evaluate.readField owner f v s₁)
  refine (hv.holds.objects.read W hv.value hne (.of_lookup hf)).mono ?_
  rintro w s₂ ⟨rfl, hw⟩
  exact ⟨hv.holds, hv.evolves, hw⟩

/-- A field of a raw receiver: it is initialized, or it may be null anyway. -/
theorem rawMember_fits (W : WellTyped a) {e : Expr Typing} {x : Ident} {ν : Typing} {id owner n : Nat}
    {f : Field} (he : Evaluate.expr a.classes call K.owner K.this e = pure K.this)
    (hsub : a.classes.isSubclass K.owner id = true) (hlimit : K.limit = some n)
    (hnote : e.note.type = some (.plain id))
    (hf : a.classes.lookupField? id x.name = some (owner, f))
    (hready : f.offset < n ∨ f.type.admitsNull = true) :
    ExprFits a call K visible (.member e x ν) f.type := by
  intro s h
  obtain ⟨i, hi, _, o, ho, ho', hfields⟩ : ∃ i, K.this = .object i ∧
      ReadyBelow a.classes K.raw i K.owner n s.objects := by
    have := h.receiver
    rwa [Scene.Ready, hlimit] at this
  have hfield := (ClassTable.HasField.of_lookup hf).inherit W.rooted hsub
  have hfits : (o.fields owner f.name).Fits a.classes s.objects K.raw f.type := by
    rcases hready with hlt | hnull
    · exact hfields owner f hfield hlt
    · exact h.objects.fields i o owner f ho (hfield.inherit W.rooted ho') (.inr hnull)
  have heval : Evaluate.expr a.classes call K.owner K.this (.member e x ν) s =
      (pure (o.fields owner f.name) : Eval Value) s := by
    rw [Evaluate.expr, he, fieldOf_eq hnote hf]
    show Evaluate.readField owner f K.this s = _
    rw [hi]
    simp [Evaluate.readField, Eval.state, bind, ho]
  rw [heval]
  exact .pure ⟨h, .refl, hfits⟩

theorem assignName_fits (W : WellTyped a) {x : String} {e : Expr Typing} {ν ν' : Typing}
    (he : ExprFits a call K visible e υ) (hfit : a.classes.isAssignable υ τ = true)
    (hτ : (visible.find? (·.name == x)).map (·.type) = some τ) :
    ExprFits a call K visible (.assign (.name x ν) e ν') τ := by
  intro s h
  refine Sure.bind (he h) ?_
  intro v s₁ hv
  have hfits := hv.value.assign W hfit
  refine .pure ⟨⟨hv.holds.objects, ?_, hv.holds.receiver⟩, hv.evolves, hfits⟩
  exact hv.holds.locals.rebind hτ hfits

theorem assignMember_fits (W : WellTyped a) {e e' : Expr Typing} {x : Ident} {ν ν' : Typing}
    {id owner : Nat} {f : Field} (he : ExprFits a call K visible e (.plain id))
    (he' : ExprFits a call K visible e' υ) (hnote : e.note.type = some (.plain id))
    (hne : id ≠ TypeId.unit) (hf : a.classes.lookupField? id x.name = some (owner, f))
    (hb : a.classes.isBuiltin owner = false) (hfit : a.classes.isAssignable υ f.type = true) :
    ExprFits a call K visible (.assign (.member e x ν) e' ν') f.type := by
  intro s h
  refine Sure.bind (he h) ?_
  intro v s₁ hv
  refine Sure.bind (he' hv.holds) ?_
  intro w s₂ hw
  rw [fieldOf_eq hnote hf]
  have hfits := hw.value.assign W hfit
  have hwrite := hw.holds.objects.write W (hv.value.keeps hw.evolves.keeps) hne (.of_lookup hf) hb hfits
  refine Sure.bind (x := Evaluate.writeField owner f v w) hwrite ?_
  rintro _ s₃ ⟨H, hevolves, hlocals⟩
  exact .pure ⟨hw.holds.evolve H hevolves hlocals, (hv.evolves.trans hw.evolves).trans hevolves,
    hfits.keeps hevolves.keeps⟩

/-! ## Operators with instructions of their own -/

theorem binary_apply (W : WellTyped a) {objects : List Instance} (H : ObjectsFit a.classes raw objects)
    {op : BinaryOp} (hd : Lower.isDedicated op τ υ = true) (hv : v.Fits a.classes objects raw τ)
    (hw : w.Fits a.classes objects raw υ) :
    ∃ u, op.apply v w = .ok u ∧ u.Fits a.classes objects raw op.resultType := by
  rcases CallsLemmas.dedicated_cases hd with ⟨rfl, rfl, hand, hor⟩ | ⟨rfl, rfl, hop⟩
  · obtain ⟨x, rfl⟩ := H.number W hv
    obtain ⟨y, rfl⟩ := H.number W hw
    cases op <;> first
      | exact absurd rfl hand
      | exact absurd rfl hor
      | exact ⟨_, rfl, .number W _⟩
      | exact ⟨_, rfl, .boolean W _⟩
  · obtain ⟨p, rfl⟩ := H.boolean W hv
    obtain ⟨q, rfl⟩ := H.boolean W hw
    rcases hop with rfl | rfl | rfl | rfl <;> exact ⟨_, rfl, .boolean W _⟩

theorem unary_apply (W : WellTyped a) {objects : List Instance} (H : ObjectsFit a.classes raw objects)
    {op : UnaryOp} (hd : Lower.isDedicatedUnary op τ = true) (hv : v.Fits a.classes objects raw τ) :
    ∃ u, op.apply v = .ok u ∧ u.Fits a.classes objects raw op.resultType := by
  cases op with
  | negate =>
    obtain rfl : τ = .number := by simpa [Lower.isDedicatedUnary] using hd
    obtain ⟨x, rfl⟩ := H.number W hv
    exact ⟨_, rfl, .number W _⟩
  | not =>
    obtain rfl : τ = .boolean := by simpa [Lower.isDedicatedUnary] using hd
    obtain ⟨b, rfl⟩ := H.boolean W hv
    exact ⟨_, rfl, .boolean W _⟩

theorem primitive_fits (W : WellTyped a) {op : BinaryOp} {l r : Expr Typing} {ν : Typing}
    (hl : ExprFits a call K visible l τ) (hr : ExprFits a call K visible r υ)
    (hτ : l.note.type = some τ) (hυ : r.note.type = some υ) (hd : Lower.isDedicated op τ υ = true) :
    ExprFits a call K visible (.binary op l r ν) op.resultType := by
  intro s h
  refine Sure.bind (hl h) ?_
  intro v s₁ hv
  refine Sure.bind (hr hv.holds) ?_
  intro w s₂ hw
  obtain ⟨u, hu, hfits⟩ :=
    binary_apply W hw.holds.objects hd (hv.value.keeps hw.evolves.keeps) hw.value
  rw [hτ, hυ, isPrimitive_eq, if_pos hd, hu]
  exact .pure ⟨hw.holds, hv.evolves.trans hw.evolves, hfits⟩

theorem unaryPrimitive_fits (W : WellTyped a) {op : UnaryOp} {e : Expr Typing} {ν : Typing}
    (he : ExprFits a call K visible e τ) (hτ : e.note.type = some τ)
    (hd : Lower.isDedicatedUnary op τ = true) :
    ExprFits a call K visible (.unary op e ν) op.resultType := by
  intro s h
  refine Sure.bind (he h) ?_
  intro v s₁ hv
  obtain ⟨u, hu, hfits⟩ := unary_apply W hv.holds.objects hd hv.value
  rw [hτ, isPrimitive_unary_eq, if_pos hd, hu]
  exact .pure ⟨hv.holds, hv.evolves, hfits⟩

/-! ## Null and types -/

theorem assert_fits {e : Expr Typing} {ν : Typing} {id : Nat}
    (he : ExprFits a call K visible e (.option id)) :
    ExprFits a call K visible (.assert e ν) (.plain id) := by
  intro s h
  refine Sure.bind (he h) ?_
  intro v s₁ hv
  by_cases hnull : v.kind = .null
  · rw [if_pos hnull]
    trivial
  · rw [if_neg hnull]
    exact .pure ⟨hv.holds, hv.evolves, .of_ne hv.value.typed (mt Value.kind_null.mpr hnull) hv.value.ready⟩

theorem instanceTest_fits (W : WellTyped a) {e : Expr Typing} {w : TypeName} {ν : Typing}
    (he : ExprFits a call K visible e τ) (hw : a.classes.resolveType w = .ok υ) :
    ExprFits a call K visible (.instanceTest e w ν) .boolean := by
  intro s h
  refine Sure.bind (he h) ?_
  intro v s₁ hv
  rw [targetType_eq hw]
  exact .pure ⟨hv.holds, hv.evolves, .boolean W _⟩

/-- A value that passes the test of a type keeps its promise. -/
theorem Value.Fits.of_isOf {objects : List Instance} (h : v.Fits a.classes objects raw τ)
    (hv : v.isOf a.classes objects υ = true) : v.Fits a.classes objects raw υ := by
  rw [Value.isOf] at hv
  cases hid : v.classId? objects with
  | none =>
    rcases h.typed with rfl | ⟨_, _, hid', _⟩
    · rw [hid] at hv
      exact .null (by simp [Ty.admitsNull, hv])
    · rw [hid] at hid'
      cases hid'
  | some id =>
    rw [hid] at hv
    cases hc : υ.class? with
    | none => simp [hc] at hv
    | some c =>
      refine .of_ne (.of_class hid hc (by simpa [hc] using hv)) ?_ h.ready
      rintro rfl
      cases hid

theorem cast_fits {e : Expr Typing} {w : TypeName} {ν : Typing} (he : ExprFits a call K visible e τ)
    (hw : a.classes.resolveType w = .ok υ) : ExprFits a call K visible (.cast e w ν) υ := by
  intro s h
  refine Sure.bind (he h) ?_
  intro v s₁ hv
  rw [targetType_eq hw]
  show Sure _ ((if v.isOf a.classes s₁.objects υ = true then pure v else Eval.fault _ : Eval Value) s₁)
  by_cases hof : v.isOf a.classes s₁.objects υ = true
  · rw [if_pos hof]
    exact .pure ⟨hv.holds, hv.evolves, hv.value.of_isOf hof⟩
  · rw [if_neg hof]
    trivial

/-! ## Arguments -/

theorem exprs_nil_fits : ExprsFit a call K visible [] [] := fun _ h => .pure ⟨h, .refl, .nil⟩

theorem exprs_cons_fits {e : Expr Typing} {es : List (Expr Typing)} {τs : List Ty}
    (he : ExprFits a call K visible e τ) (hes : ExprsFit a call K visible es τs) :
    ExprsFit a call K visible (e :: es) (τ :: τs) := by
  intro s h
  refine Sure.bind (he h) ?_
  intro v s₁ hv
  refine Sure.bind (hes hv.holds) ?_
  intro vs s₂ hvs
  exact .pure ⟨hvs.holds, hv.evolves.trans hvs.evolves,
    .cons (hv.value.keeps hvs.evolves.keeps) hvs.values⟩

/-! ## Calls -/

/-- A call of the method that a class has, in the place of that of a superclass. -/
theorem send_fits (W : WellTyped a) (C : CallsFit a call) {sub id owner : Nat} {key : MemberKey}
    {meth : Method} {τs : List Ty} {args : List Value} (hkey : key.isInherited)
    (hl : a.classes.lookupMethod? id key = some (owner, meth))
    (hsub : a.classes.isSubclass sub id = true) (h : K.Holds a.classes visible s)
    (hk : Evolves K.raw s₀.objects s.objects) (hv : v.Receives a.classes s.objects K.raw sub)
    (hargs : ValuesFit a.classes s.objects K.raw args τs) (hfit : a.classes.Fit τs meth.params) :
    Sure (K.Yields a.classes visible s₀ meth.returns)
      (Evaluate.send a.classes call sub key (v :: args) s) := by
  obtain ⟨owner', meth', hl', hconf⟩ := W.lookup_conforms hsub hkey hl
  obtain ⟨hanc, r, hr, hm⟩ := ClassTable.lookupMethod_some hl'
  have hinherits := ClassTable.isSubclass_iff.mpr hanc
  have hinit : key ≠ .initializer := by
    rintro rfl
    cases hkey
  -- The method may belong to a class above; where the call is made on null, this is the root again.
  have hthis : v.Receives a.classes s.objects K.raw owner' := by
    rcases hv with hv | ⟨rfl, hnull⟩
    · exact .inl (hv.assign W hinherits)
    · exact .inr ⟨or_self_iff.mp (W.builtin_subclass (by decide) hinherits), hnull⟩
  have hsend : Evaluate.send a.classes call sub key (v :: args) = call owner' key (v :: args) := by
    rw [Evaluate.send, hl']
  rw [hsend]
  refine (C.method hinit (.method hr hm hkey) h.objects hthis
    ((hargs.fit W hfit).fit W hconf.params)).mono ?_
  intro w s' hw
  have hy := hw.yields h hk
  exact ⟨hy.holds, hy.evolves, hy.value.assign W hconf.returns⟩

/-- A call through a receiver of a declared class, which is not null. -/
theorem dispatch_fits (W : WellTyped a) (C : CallsFit a call) {id owner : Nat} {key : MemberKey}
    {meth : Method} {τs : List Ty} {args : List Value} {onNull : Option Nat} (hne : id ≠ TypeId.unit)
    (hkey : key.isInherited) (hl : a.classes.lookupMethod? id key = some (owner, meth))
    (h : K.Holds a.classes visible s) (hk : Evolves K.raw s₀.objects s.objects)
    (hv : v.Fits a.classes s.objects K.raw (.plain id))
    (hargs : ValuesFit a.classes s.objects K.raw args τs) (hfit : a.classes.Fit τs meth.params) :
    Sure (K.Yields a.classes visible s₀ meth.returns)
      (Evaluate.dispatch a.classes call v key args onNull s) := by
  rcases hv.typed with hnull | ⟨sub, c, hsub, hc, hinh⟩
  · exact absurd hnull (hv.ne_null hne)
  cases hc
  have heval : Evaluate.dispatch a.classes call v key args onNull s =
      Evaluate.send a.classes call sub key (v :: args) s := by
    simp [Evaluate.dispatch, Eval.state, bind, hsub]
  rw [heval]
  exact send_fits W C hkey hl hinh h hk (.inl (h.objects.of_classId W hv hsub)) hargs hfit

/-- Equality on what may be null: the method of the receiver's class, or that of the root. -/
theorem dispatch_any_fits (W : WellTyped a) (C : CallsFit a call) {owner : Nat} {key : MemberKey}
    {meth : Method} {τs : List Ty} {args : List Value} (hkey : key.isInherited)
    (hl : a.classes.lookupMethod? TypeId.any key = some (owner, meth))
    (h : K.Holds a.classes visible s) (hk : Evolves K.raw s₀.objects s.objects)
    (hv : v.Fits a.classes s.objects K.raw τ)
    (hargs : ValuesFit a.classes s.objects K.raw args τs) (hfit : a.classes.Fit τs meth.params) :
    Sure (K.Yields a.classes visible s₀ meth.returns)
      (Evaluate.dispatch a.classes call v key args (some TypeId.any) s) := by
  have hany : TypeId.any < a.classes.size := Nat.lt_of_lt_of_le (by decide) W.first_le
  -- The class that the call goes by: that of the receiver, or the root.
  obtain ⟨sub, hsub, hinh, hreceives⟩ : ∃ sub : Nat,
      (v.classId? s.objects).or (some TypeId.any) = some sub ∧
      a.classes.isSubclass sub TypeId.any = true ∧ v.Receives a.classes s.objects K.raw sub := by
    rcases hv.typed with rfl | ⟨sub, _, hsub, _, _⟩
    · exact ⟨TypeId.any, rfl, ClassTable.isSubclass_refl hany, .inr ⟨rfl, rfl⟩⟩
    · obtain ⟨hlt, hne⟩ := h.objects.populated.classId_lt W hsub
      exact ⟨sub, by simp [hsub], W.subclass_any hlt hne, .inl (h.objects.of_classId W hv hsub)⟩
  have heval : Evaluate.dispatch a.classes call v key args (some TypeId.any) s =
      Evaluate.send a.classes call sub key (v :: args) s := by
    simp [Evaluate.dispatch, Eval.state, bind, hsub]
  rw [heval]
  exact send_fits W C hkey hl hinh h hk hreceives hargs hfit

theorem call_fits (W : WellTyped a) (C : CallsFit a call) {e : Expr Typing} {x : Ident}
    {ν ν' : Typing} {es : List (Expr Typing)} {id owner : Nat} {meth : Method} {τs : List Ty}
    (he : ExprFits a call K visible e (.plain id)) (hes : ExprsFit a call K visible es τs)
    (hbase : ∀ ν, e ≠ .base ν) (hne : id ≠ TypeId.unit)
    (hl : a.classes.lookupMethod? id (.named x.name) = some (owner, meth))
    (hfit : a.classes.Fit τs meth.params) :
    ExprFits a call K visible (.call (.member e x ν) es ν') meth.returns := by
  intro s h
  have heval : Evaluate.expr a.classes call K.owner K.this (.call (.member e x ν) es ν') = (do
      let receiver ← Evaluate.expr a.classes call K.owner K.this e
      let args ← Evaluate.exprs a.classes call K.owner K.this es
      Evaluate.dispatch a.classes call receiver (.named x.name) args none) := by
    cases e with
    | base ν => exact absurd rfl (hbase ν)
    | _ => rfl
  rw [heval]
  refine Sure.bind (he h) ?_
  intro v s₁ hv
  refine Sure.bind (hes hv.holds) ?_
  intro vs s₂ hvs
  exact dispatch_fits W C hne rfl hl hvs.holds (hv.evolves.trans hvs.evolves)
    (hv.value.keeps hvs.evolves.keeps) hvs.values hfit

/-- A call of the method that the parent class has. -/
theorem baseCall_fits (W : WellTyped a) (C : CallsFit a call) {x : Ident} {ν₀ ν ν' : Typing}
    {es : List (Expr Typing)} {p owner : Nat} {meth : Method} {τs : List Ty}
    (hes : ExprsFit a call K visible es τs) (hlimit : K.limit = none)
    (hp : a.classes.parent? K.owner = some p)
    (hl : a.classes.lookupMethod? p (.named x.name) = some (owner, meth))
    (hfit : a.classes.Fit τs meth.params) :
    ExprFits a call K visible (.call (.member (.base ν₀) x ν) es ν') meth.returns := by
  intro s h
  refine Sure.bind (hes h) ?_
  intro vs s₁ hvs
  have hself := ClassTable.isSubclass_refl (W.rooted.parent_lt _ _ hp)
  have hthis := hvs.holds.this_fits_parent W hlimit hp
  rw [hp]
  exact send_fits W C rfl hl hself hvs.holds hvs.evolves (.inl hthis) hvs.values hfit

theorem binary_fits (W : WellTyped a) (C : CallsFit a call) {op : BinaryOp} {l r : Expr Typing}
    {ν : Typing} {id owner : Nat} {meth : Method} (hl : ExprFits a call K visible l τ)
    (hr : ExprFits a call K visible r υ) (hτ : l.note.type = some τ) (hυ : r.note.type = some υ)
    (hd : Lower.isDedicated op τ υ = false) (hop : OperatorClass op τ id)
    (hm : a.classes.lookupMethod? id (.binary op) = some (owner, meth))
    (hfit : ∀ p ∈ meth.params.head?, a.classes.isAssignable υ p = true) :
    ExprFits a call K visible (.binary op l r ν) meth.returns := by
  have hparams : a.classes.Fit [υ] meth.params := by
    obtain ⟨p, hp⟩ := List.length_eq_one_iff.mp ((W.operator_params hm).1 op rfl)
    rw [hp] at hfit ⊢
    exact .cons (hfit p rfl) .nil
  intro s h
  refine Sure.bind (hl h) ?_
  intro v s₁ hv
  refine Sure.bind (hr hv.holds) ?_
  intro w s₂ hw
  rw [hτ, hυ, isPrimitive_eq, hd, if_neg (by decide)]
  have hk := hv.evolves.trans hw.evolves
  have hv' := hv.value.keeps hw.evolves.keeps
  have hargs : ValuesFit a.classes s₂.objects K.raw [w] [υ] := .cons hw.value .nil
  unfold OperatorClass at hop
  cases hn : τ.isNullable && op.isEquality with
  | true =>
    rw [hn, if_pos rfl] at hop
    subst hop
    simp only [Option.any_some, hn, if_true]
    exact dispatch_any_fits W C rfl hm hw.holds hk hv' hargs hparams
  | false =>
    rw [hn, if_neg (by decide)] at hop
    obtain ⟨rfl, hne⟩ := hop
    exact dispatch_fits W C hne rfl hm hw.holds hk hv' hargs hparams

theorem unary_fits (W : WellTyped a) (C : CallsFit a call) {op : UnaryOp} {e : Expr Typing}
    {ν : Typing} {id owner : Nat} {meth : Method} (he : ExprFits a call K visible e (.plain id))
    (hτ : e.note.type = some (.plain id)) (hd : Lower.isDedicatedUnary op (.plain id) = false)
    (hne : id ≠ TypeId.unit) (hm : a.classes.lookupMethod? id (.unary op) = some (owner, meth)) :
    ExprFits a call K visible (.unary op e ν) meth.returns := by
  intro s h
  refine Sure.bind (he h) ?_
  intro v s₁ hv
  rw [hτ, isPrimitive_unary_eq, hd, if_neg (by decide)]
  have hfit : a.classes.Fit [] meth.params := by
    rw [(W.operator_params hm).2 op rfl]
    exact .nil
  exact dispatch_fits W C hne rfl hm hv.holds hv.evolves hv.value .nil hfit

/-! ## New objects -/

/-- The initializer of a class leaves no field raw. Classes without one have no fields. -/
theorem prepare_fits (W : WellTyped a) (C : CallsFit a call) {i id : Nat}
    (hinst : a.classes.Inheritable id) (H : ObjectsFit a.classes raw s.objects)
    (hi : ReadyBelow a.classes raw i id 0 s.objects) :
    Sure (fun _ => Initialized a.classes raw i id s) (Evaluate.prepare call id (.object i) s) := by
  rw [Evaluate.prepare]
  split
  · next hu =>
    -- Of the built-in classes only strings have a field, and nothing inherits from those.
    obtain ⟨hraw, o, ho, hsub, _⟩ := hi
    refine .pure ⟨H, .refl, rfl, hraw, o, ho, hsub, ?_⟩
    rintro owner f ⟨hanc, r, hr, hf⟩ -
    obtain ⟨rfl, _⟩ := W.builtin_fields hu (ClassTable.isSubclass_iff.mpr hanc) hr hf
    rcases hinst with h | h | ⟨h, _⟩
    all_goals exact absurd h (by decide)
  · next hu =>
    refine Sure.bind (C.initializer hu H hi) ?_
    intro _ s' h
    exact .pure h

/-- Making an object: once its fields are initialized, it is raw no more. -/
theorem instantiate_fits (W : WellTyped a) (C : CallsFit a call) {id : Nat}
    (hinst : a.classes.Inheritable id) (H : ObjectsFit a.classes raw s.objects) :
    Sure (Answers a.classes raw s (.plain id)) (Evaluate.instantiate call id s) := by
  have hlt := W.inheritable_lt hinst
  have hself := ClassTable.isSubclass_refl hlt
  have hlast : (s.objects ++ [(⟨id, fun _ _ => .null⟩ : Instance)])[s.objects.length]? =
      some ⟨id, fun _ _ => .null⟩ := by simp
  show Sure _ ((do
    Evaluate.prepare call id (.object s.objects.length)
    return .object s.objects.length : Eval Value)
      { s with objects := s.objects ++ [⟨id, fun _ _ => .null⟩] })
  refine Sure.bind (prepare_fits W C hinst (H.allocate hinst) ⟨.inr rfl, _, hlast, hself,
    fun _ _ _ h => absurd h (Nat.not_lt_zero _)⟩) ?_
  rintro _ s₁ h
  obtain ⟨_, o, ho, _, hfields⟩ := h.ready
  have hclass : o.classId = id := by
    obtain ⟨o', ho', hid⟩ := h.evolves.keeps _ _ hlast
    rw [ho] at ho'
    cases ho'
    exact hid
  refine .pure ⟨⟨h.objects.finish (fun i hi => .inl hi) ?_, ⟨?_, fun j hj => ?_⟩, ?_⟩, h.locals⟩
  · -- All slots of the class are below its number of fields, so that nothing is left to initialize.
    rintro i o' owner f hraw hnot ho' hf
    obtain rfl := hraw.resolve_left hnot
    rw [ho] at ho'
    cases ho'
    rw [hclass] at hf
    obtain ⟨hanc, r, hr, hmem⟩ := hf
    exact hfields owner f ⟨hanc, r, hr, hmem⟩
      (ClassTable.offset_lt W.rooted W.placed hlt hanc hr hmem)
  · exact (Keeps.append _).trans h.evolves.keeps
  · have hj' := H.bound j hj
    rw [h.evolves.frozen j ⟨.inl hj, Nat.ne_of_lt hj'⟩]
    exact List.getElem?_append_left hj'
  · refine .of_ne (.of_class (by simp [Value.classId?, ho, hclass]) rfl hself) nofun ?_
    rintro i ⟨⟩ hraw
    exact absurd (H.bound _ hraw) (Nat.lt_irrefl _)

theorem new_fits (W : WellTyped a) (C : CallsFit a call) {c : Ident} {ν : Typing}
    {es : List (Expr Typing)} {id : Nat} {meth : Method} {τs : List Ty}
    (hes : ExprsFit a call K visible es τs) (hid : a.classes.find? c.name = some id)
    (hctor : a.classes.constructor? id = some meth) (hfit : a.classes.Fit τs meth.params) :
    ExprFits a call K visible (.new c es ν) (.plain id) := by
  intro s h
  rw [Evaluate.expr, hid]
  refine Sure.bind (instantiate_fits W C (W.constructor_inheritable hctor) h.objects) ?_
  intro o s₁ hnew
  have ho := hnew.yields h .refl
  refine Sure.bind (hes ho.holds) ?_
  intro vs s₂ hvs
  have hthis := ho.value.keeps hvs.evolves.keeps
  refine Sure.bind (C.method (by simp) (.constructor hctor) hvs.holds.objects (.inl hthis)
    (hvs.values.fit W hfit)) ?_
  intro _ s₃ hret
  have hend := hret.yields hvs.holds (ho.evolves.trans hvs.evolves)
  exact .pure ⟨hend.holds, hend.evolves, hthis.keeps hret.evolves.keeps⟩

/-! ## All expressions -/

mutual

/-- A well-typed expression keeps the promise of its type. -/
theorem expr_fits (W : WellTyped a) (C : CallsFit a call) {env : Environment} {result : Ty}
    (hin : env.Inside a.classes K.owner result) (hcls : K.owner < a.classes.size) :
    ∀ (e : Expr Typing) {τ : Ty}, Typed env e τ → e.usesReady a.classes K.limit = true →
      ExprFits a call K env.visible e τ
  | .number x ν, τ, he, _ => by
    cases he
    exact number_fits W
  | .string c ν, τ, he, _ => by
    cases he
    exact string_fits W
  | .boolean b ν, τ, he, _ => by
    cases he
    exact boolean_fits W
  | .null ν, τ, he, _ => by
    cases he
    exact null_fits
  | .name x ν, τ, he, _ => by
    cases he with
    | name hτ => exact name_fits (Environment.typeOf_eq x ▸ hτ)
  | .this ν, τ, he, hready => by
    obtain ⟨id, rfl⟩ : ∃ id, τ = .plain id := by
      cases he
      exact ⟨_, rfl⟩
    obtain ⟨heval, hsub⟩ := he.receiver call W hin hcls rfl
    exact receiver_fits W heval hsub (Option.isNone_iff_eq_none.mp hready)
  | .base ν, τ, he, hready => by
    obtain ⟨id, rfl⟩ : ∃ id, τ = .plain id := by
      cases he
      exact ⟨_, rfl⟩
    obtain ⟨heval, hsub⟩ := he.receiver call W hin hcls rfl
    exact receiver_fits W heval hsub (Option.isNone_iff_eq_none.mp hready)
  | .member e x ν, τ, he, hready => by
    cases he with
    | member he hne hf =>
      rw [hin.classes] at hf
      -- In an initializer `this` is raw, so its evaluation by itself promises nothing.
      by_cases hrec : e.isReceiver = true ∧ ∃ n, K.limit = some n
      · obtain ⟨hrec, n, hlimit⟩ := hrec
        obtain ⟨heval, hsub⟩ := he.receiver call W hin hcls hrec
        refine rawMember_fits W heval hsub hlimit he.note_type hf ?_
        simpa [Expr.usesReady, hrec, hlimit, he.note_type, Ty.class?, hf] using hready
      · have hready' : e.usesReady a.classes K.limit = true := by
          cases hlimit : K.limit with
          | none => exact Expr.usesReady_none _ e
          | some n =>
            have hnot : e.isReceiver = false := by simpa [hlimit] using hrec
            rwa [Expr.usesReady, hnot, if_neg (by decide), hlimit] at hready
        exact member_fits W (expr_fits W C hin hcls e he hready') he.note_type hne hf
  | .call e es ν', τ, he, hready => by
    cases e with
    | member o x ν =>
      cases he with
      | call ho hne hm _ hlen hes hfit =>
        rw [hin.classes] at hm hfit
        rw [Expr.usesReady, Bool.and_eq_true] at hready
        have hargs := exprs_fit W C hin hcls es hlen hes hready.2
        by_cases hbase : ∃ ν₀, o = .base ν₀
        · obtain ⟨ν₀, rfl⟩ := hbase
          cases ho with
          | base hid hp =>
            rw [hin.thisClass] at hid
            cases hid
            rw [hin.classes] at hp
            exact baseCall_fits W C hargs (Option.isNone_iff_eq_none.mp hready.1) hp hm hfit
        · exact call_fits W C (expr_fits W C hin hcls o ho hready.1) hargs
            (fun ν₀ h => hbase ⟨ν₀, h⟩) hne hm hfit
    | _ => cases he
  | .new c es ν, τ, he, hready => by
    cases he with
    | new hid hctor _ hlen hes hfit =>
      rw [hin.classes] at hid hctor hfit
      exact new_fits W C (exprs_fit W C hin hcls es hlen hes hready) hid hctor hfit
  | .assign e v ν', τ, he, hready => by
    cases e with
    | name x ν =>
      cases he with
      | assignName hτ hv hfit =>
        rw [hin.classes] at hfit
        exact assignName_fits W (expr_fits W C hin hcls v hv hready) hfit
          (Environment.typeOf_eq x ▸ hτ)
    | member o x ν =>
      cases he with
      | assignMember ho hne hf _ hb hv hfit =>
        rw [hin.classes] at hf hb hfit
        rw [Expr.usesReady, Bool.and_eq_true] at hready
        exact assignMember_fits W (expr_fits W C hin hcls o ho hready.1)
          (expr_fits W C hin hcls v hv hready.2) ho.note_type hne hf hb hfit
    | _ => cases he
  | .binary op l r ν, τ, he, hready => by
    cases he with
    | @binary _ _ _ _ τ υ id owner m hl hr hop hm _ hfit =>
      rw [hin.classes] at hm hfit
      rw [Expr.usesReady, Bool.and_eq_true] at hready
      have hlf := expr_fits W C hin hcls l hl hready.1
      have hrf := expr_fits W C hin hcls r hr hready.2
      cases hd : Lower.isDedicated op τ υ with
      | true =>
        rw [CallsLemmas.binary_returns W hd hop hm]
        exact primitive_fits W hlf hrf hl.note_type hr.note_type hd
      | false => exact binary_fits W C hlf hrf hl.note_type hr.note_type hd hop hm hfit
  | .unary op e ν, τ, he, hready => by
    cases he with
    | @unary _ _ _ id owner m he hne hm =>
      rw [hin.classes] at hm
      have hef := expr_fits W C hin hcls e he hready
      cases hd : Lower.isDedicatedUnary op (.plain id) with
      | true =>
        rw [CallsLemmas.unary_returns W hd hm]
        exact unaryPrimitive_fits W hef he.note_type hd
      | false => exact unary_fits W C hef he.note_type hd hne hm
  | .assert e ν, τ, he, hready => by
    cases he with
    | assert he => exact assert_fits (expr_fits W C hin hcls e he hready)
  | .instanceTest e w ν, τ, he, hready => by
    cases he with
    | instanceTest he hw =>
      rw [hin.classes] at hw
      exact instanceTest_fits W (expr_fits W C hin hcls e he hready) hw
  | .cast e w ν, τ, he, hready => by
    cases he with
    | cast he hw =>
      rw [hin.classes] at hw
      exact cast_fits (expr_fits W C hin hcls e he hready) hw

/-- Well-typed arguments keep the promises of their types. -/
theorem exprs_fit (W : WellTyped a) (C : CallsFit a call) {env : Environment} {result : Ty}
    (hin : env.Inside a.classes K.owner result) (hcls : K.owner < a.classes.size) :
    ∀ (es : List (Expr Typing)) {τs : List Ty}, es.length = τs.length →
      (∀ p ∈ es.zip τs, Typed env p.1 p.2) → Expr.usesReadyAll a.classes K.limit es = true →
      ExprsFit a call K env.visible es τs
  | [], τs, hlen, _, _ => by
    obtain rfl := List.length_eq_zero_iff.mp hlen.symm
    exact exprs_nil_fits
  | e :: es, τs, hlen, hes, hready => by
    match τs with
    | τ :: τs =>
      rw [List.zip_cons_cons, List.forall_mem_cons] at hes
      rw [Expr.usesReadyAll, Bool.and_eq_true] at hready
      exact exprs_cons_fits (expr_fits W C hin hcls e hes.1 hready.1)
        (exprs_fit W C hin hcls es (Nat.succ.inj hlen) hes.2 hready.2)

end

end

end ClassLang
