import ClassLang.Proofs.Statements

/-!
# Members on the machine

A call of a member starts its chunk with the arguments in the first slots and comes back with the result
(`invoke_realized`). The induction is on the depth of calls: what a member calls runs at a smaller depth.
-/

namespace ClassLang

open ResolutionLemmas

/-- The activation of a chunk. -/
def Activation.start (chunk : Chunk) (callers : List Frame) (owner : Nat) (this : Value) : Activation :=
  ⟨chunk.code, chunk.locals, callers, owner, this⟩

section

variable {a : Analysis} {image : Image} {n : Nat} {call : Nat → MemberKey → List Value → Eval Value}
  {K : Activation} {visible : List Binding} {ip : Nat} {s : EvalState} {m : Machine} {ρ : Ty}
  {f : Frame} {callers : List Frame}

/-! ## Coming and going -/

/-- Parameters with their types. -/
def paramBindings (params : List Param) (types : List Ty) : List Binding :=
  (params.zipWith (fun p τ => ⟨p.name.name, τ⟩) types).reverse

/-- A chunk starts with its arguments in their slots. -/
theorem start_at (callers : List Frame) {chunk : Chunk} {params : List Param} {types : List Ty} {owner : Nat} {this : Value}
    {args : List Value} {h : Heap} (hlen : types.length = params.length)
    (hroom : params.length + 1 ≤ chunk.locals) (H : HeapRel a.classes s.objects h)
    (hthis : this.HasType a.classes s.objects (.plain owner))
    (hargs : ValuesTyped a.classes s.objects args types) :
    (Activation.start chunk callers owner this).At a.classes (paramBindings params types) 0 []
      { s with locals := Evaluate.parameters params args }
      ⟨.start chunk (this :: args), callers, h, s.console⟩ := by
  have hcount : args.length = params.length := (List.Forall₂.length_eq hargs).trans hlen
  refine ⟨_, h, rfl, ?_, ⟨?_, ?_⟩, H, hthis⟩
  · simp only [List.size_toArray, List.length_append, List.length_replicate, List.length_cons,
      Activation.start]
    omega
  · have htyped : ∀ (params : List Param) (types : List Ty) (args : List Value),
        types.length = params.length → ValuesTyped a.classes s.objects args types →
        List.Forall₂ (fun b β => b.1 = β.name ∧ b.2.HasType a.classes s.objects β.type)
          (params.zipWith (fun p v => (p.name.name, v)) args)
          (params.zipWith (fun p τ => (⟨p.name.name, τ⟩ : Binding)) types) := by
      intro params
      induction params with
      | nil => intro types args _ _; exact .nil
      | cons p params ih =>
        intro types args hlen hargs
        cases hargs with
        | nil => cases hlen
        | cons hv hargs => exact .cons ⟨rfl, hv⟩ (ih _ _ (Nat.succ.inj hlen) hargs)
    exact List.rel_reverse (htyped params types args hlen hargs)
  · have hvalues : ∀ (params : List Param) (args : List Value), args.length = params.length →
        (params.zipWith (fun p v => (p.name.name, v)) args).map (·.2) = args := by
      intro params
      induction params with
      | nil => intro args h; simp [List.length_eq_zero_iff.mp h]
      | cons p params ih =>
        intro args h
        match args with
        | v :: args => simp [ih args (Nat.succ.inj h)]
    refine ⟨List.replicate (chunk.locals - (this :: args).length) .null, ?_⟩
    rw [Evaluate.parameters, List.map_reverse, List.reverse_reverse, hvalues params args hcount]
    rfl

/-- Evaluating with local names of its own, up to the `return` instruction and behind it. -/
theorem inside_realized {x : Eval Value} {locals : List (String × Value)} {P : Value → Prop}
    (hcallers : K.callers = f :: callers)
    (h : Realizes image (HeapTyped a) n (x { s with locals }) m fun v s' m' =>
      K.Returning a.classes s ρ v s' m' ∧ P v) :
    Realizes image (HeapTyped a) n (Evaluate.inside locals x s) m fun v s' m' =>
      Returned a.classes f callers s ρ v s' m' ∧ P v := by
  have hstep : Realizes image (HeapTyped a) n (x { s with locals }) m fun v s' m' =>
      Returned a.classes f callers s ρ v { s' with locals := s.locals } m' ∧ P v := by
    refine h.follow ?_
    rintro v s' m' ⟨hret, hv⟩
    obtain ⟨ip, stk, L, h, rfl, hi, hrel⟩ := hret.machine
    rw [hcallers]
    exact ⟨1, _, .one ⟨s'.objects, hrel⟩ (step_return hi), ⟨⟨h, rfl, hrel⟩, hret.keeps, rfl, hret.typed⟩,
      hv⟩
  exact hstep.map (fun s' => { s' with locals := s.locals }) (fun _ => rfl) fun _ _ _ hp => hp

/-- The end of a body: null is the result if no statement has returned one. -/
theorem result_realized {x : Eval Evaluate.Flow} {s₀ : EvalState}
    (hcode : CodeAt K.code ip [.pushNull, .return])
    (h : Realizes image (HeapTyped a) n (x s) m (K.After a.classes visible ip ρ s₀)) :
    Realizes image (HeapTyped a) n ((do return (← x).result : Eval Value) s) m
      (K.Returning a.classes s₀ ρ) := by
  refine h.bind ?_
  intro fl s₁ m₁ hafter
  cases fl with
  | returned v => exact .pure hafter
  | next =>
    obtain ⟨⟨L, h, rfl, hK⟩, hk⟩ := hafter
    refine .step hK.heapTyped (step_pushNull hcode.head) ?_
    exact .pure ⟨⟨_, _, L, h, rfl, hcode.tail.head, hK.heap⟩, hk, .null⟩

/-- The environment of a member's body. -/
theorem ParamsBound.proper {id : Nat} {params : List Param} {types : List Ty} {env : Environment}
    (h : ParamsBound a.classes id ρ params types env) (hnamed : ∀ τ ∈ types, a.classes.Names τ) :
    env.Proper a.classes id ρ := by
  refine ⟨h.inside, fun b hb => ?_⟩
  rw [h.visible, List.mem_reverse, ← List.map_uncurry_zip_eq_zipWith, List.mem_map] at hb
  obtain ⟨⟨p, τ⟩, hmem, rfl⟩ := hb
  exact hnamed τ (List.of_mem_zip hmem).2

/-! ## Methods -/

/-- The parameter types of an entry of the class table are about its classes. -/
theorem WellTyped.params_named (W : WellTyped a) {id : Nat} {r : ClassRecord} {key : MemberKey}
    {meth : Method} (hr : a.classes.record? id = some r) (hm : r.method? key = some meth) :
    ∀ τ ∈ meth.params, a.classes.Names τ :=
  ((W.named id r hr).2 meth (List.mem_of_find?_eq_some hm)).1

theorem method_realized (W : WellTyped a) (A : Assembled a image) (C : CallsRealized a image n call)
    {id : Nat} {r : ClassRecord} {md : MethodDecl Typing} {meth : Method} {chunk : Chunk}
    {this : Value} {args : List Value} {h : Heap} (hr : a.classes.record? id = some r)
    (hmd : MethodTyped a.classes id r md) (hm : r.method? md.name.key = some meth)
    (hchunk : EmitsChunk image.pools a.classes md.params [] (some md.body) chunk)
    (H : HeapRel a.classes s.objects h) (hthis : this.HasType a.classes s.objects (.plain id))
    (hargs : ValuesTyped a.classes s.objects args meth.params) :
    Realizes image (HeapTyped a) n (Evaluate.method a.classes call id this n md args s)
      ⟨.start chunk (this :: args), f :: callers, h, s.console⟩
      (Returned a.classes f callers s meth.returns) := by
  obtain ⟨meth', hm', hlen, _, env, env', hbound, hbody⟩ := hmd
  rw [hm] at hm'
  cases hm'
  obtain ⟨code, hcode, hemits⟩ := hchunk.code
  have hwhole := CodeAt.whole hcode
  rw [List.nil_append] at hwhole
  have hvisible : env.visible = paramBindings md.params meth.params := hbound.visible
  have hat := start_at (f :: callers) hlen hchunk.room H hthis hargs
  rw [← hvisible] at hat
  have hrun := stmt_realized W A C (ClassTable.lt_of_record hr) md.body
    (hbound.proper (W.params_named hr hm)) hbody
    (by rw [LocalsRel.names, hbound.names hlen]; exact hemits) hwhole.left hat
  have hcallers : (Activation.start chunk (f :: callers) id this).callers = f :: callers := rfl
  refine (inside_realized (P := fun _ => True) hcallers ?_).mono fun v s' m' hp => hp.1
  exact (result_realized hwhole.right hrun).mono fun v s' m' hp =>
    ⟨⟨hp.machine, hp.keeps, hp.typed⟩, trivial⟩

/-! ## Constructors -/

/-- The call of the parent's constructor, and what comes behind it. -/
theorem baseConstructor_realized (W : WellTyped a) (A : Assembled a image)
    (C : CallsRealized a image n call) {x : Eval Value} {P : Value → EvalState → Machine → Prop}
    {p i : Nat} {base : Method} {es : List (Expr Typing)}
    {τs : List Ty} {code : List Instr} (hp : a.classes.parent? K.owner = some p)
    (hbase : a.classes.constructor? p = some base) (hi : image.members[i]? = some .constructor)
    (hes : ExprsRealized a image n call K visible es τs code)
    (hfit : a.classes.Fit τs base.params)
    (hcode : CodeAt K.code ip (Instr.load 0 :: code ++ [Instr.invoke (TypeId.index p) i, .pop]))
    (hm : K.At a.classes visible ip [] s m)
    (hx : ∀ s' m', K.At a.classes visible (ip + code.length + 3) [] s' m' →
      Keeps s.objects s'.objects → Realizes image (HeapTyped a) n (x s') m' P) :
    Realizes image (HeapTyped a) n ((do
        let args ← Evaluate.exprs a.classes call K.owner K.this es
        let _ ← call p .constructor (K.this :: args)
        x : Eval Value) s) m P := by
  obtain ⟨L, h, rfl, hK⟩ := hm
  obtain ⟨r, hr, hmeth⟩ := Option.bind_eq_some_iff.mp hbase
  obtain ⟨body, hres, hbody, hargs⟩ := resolve_method W A (W.rooted.parent_lt _ _ hp)
    (W.parent_ne_unit hp) hi (by simp) (ClassTable.lookupMethod_own hr hmeth)
  have hbehind := hcode.right
  rw [List.length_cons, Nat.add_comm code.length, ← Nat.add_assoc] at hbehind
  refine .step hK.heapTyped (step_load hcode.head hK.locals.this_slot) ?_
  have hat : K.At a.classes visible (ip + 1) [K.this] s _ := ⟨L, h, rfl, hK⟩
  refine (hes hcode.left.tail hat).bind ?_
  intro vs s₁ m₁ hq
  obtain ⟨L₁, h₁, rfl, hK₁⟩ := hq.reached
  have hthis : K.this.HasType a.classes s₁.objects (.plain p) := by
    refine hK₁.receiver.assign W.rooted ?_
    exact ClassTable.isSubclass_parent W.rooted hp
  have hcount : body.arguments = (K.this :: vs).length := by
    rw [hargs, ← List.Forall₂.length_eq hfit, ← List.Forall₂.length_eq hq.typed]
    rfl
  have hstep : Machine.step image
      ⟨⟨K.code, ip + 1 + code.length, vs.reverse ++ [K.this], L₁⟩, K.callers, h₁, s₁.console⟩ =
      Machine.call image ⟨⟨K.code, ip + 1 + code.length + 1, [], L₁⟩, K.callers, h₁, s₁.console⟩ body
        (K.this :: vs) := by
    simpa using step_invoke hbehind.head hres hcount
  refine (C.push hbody (.constructor hbase) hK₁ hq.keeps hthis (hq.typed.fit W.rooted hfit)
    hK₁.heapTyped hstep).bind ?_
  rintro w s₂ m₂ ⟨hret, _⟩
  obtain ⟨L₂, h₂, rfl, hK₂⟩ := hret.reached
  refine .step hK₂.heapTyped (step_pop hbehind.tail.head) (hx s₂ _ ?_ hret.keeps)
  have hip : ip + 1 + code.length + 1 + 1 = ip + code.length + 3 := by omega
  exact ⟨L₂, h₂, by rw [hip], hK₂⟩

/-- The types of a constructor's parameters and of those that its base call goes by. -/
theorem constructor_realized (W : WellTyped a) (A : Assembled a image)
    (C : CallsRealized a image n call) {id p i : Nat} {r : ClassRecord} {d : ConstructorDecl Typing}
    {meth base : Method} {env env' : Environment} {chunk : Chunk} {codes : List (List Instr)}
    {this : Value} {args : List Value} {h : Heap} (hr : a.classes.record? id = some r)
    (hp : a.classes.parent? id = some p) (hm : r.method? .constructor = some meth)
    (hbase : a.classes.constructor? p = some base) (hlen : meth.params.length = d.params.length)
    (hbound : ParamsBound a.classes id .unit d.params meth.params env)
    (hargsTyped : ArgumentsTyped env (d.baseArguments.getD []) base.params)
    (hbody : StmtTyped env d.body env')
    (hcodes : List.Forall₂ (Emits image.pools a.classes (paramNames d.params))
      (d.baseArguments.getD []) codes)
    (hi : image.members[i]? = some .constructor)
    (hchunk : EmitsChunk image.pools a.classes d.params
      (Instr.load 0 :: codes.flatten ++ [Instr.invoke (TypeId.index p) i, .pop]) (some d.body) chunk)
    (H : HeapRel a.classes s.objects h) (hthis : this.HasType a.classes s.objects (.plain id))
    (hargs : ValuesTyped a.classes s.objects args meth.params) :
    Realizes image (HeapTyped a) n (Evaluate.constructor a.classes call id this n p (some d) args s)
      ⟨.start chunk (this :: args), f :: callers, h, s.console⟩
      (Returned a.classes f callers s .unit) := by
  obtain ⟨code, hcode, hemits⟩ := hchunk.code
  have hwhole := CodeAt.whole hcode
  have hcls := ClassTable.lt_of_record hr
  have hproper := hbound.proper (W.params_named hr hm)
  have hvisible : env.visible = paramBindings d.params meth.params := hbound.visible
  have hnames : LocalsRel.names env.visible = paramNames d.params := hbound.names hlen
  have hat := start_at (f :: callers) hlen hchunk.room H hthis hargs
  rw [← hvisible] at hat
  obtain ⟨τs, hcount, hτs, hfit⟩ := hargsTyped
  rw [hbound.inside.classes] at hfit
  have hcallers : (Activation.start chunk (f :: callers) id this).callers = f :: callers := rfl
  have hexprs : ExprsRealized a image n call (.start chunk (f :: callers) id this) env.visible
      (d.baseArguments.getD []) τs codes.flatten :=
    exprs_realized W A C hproper.inside hcls hproper.named _ hcount hτs (hnames ▸ hcodes)
  rw [Evaluate.constructor]
  refine (inside_realized (P := fun _ => True) hcallers ?_).mono fun v s' m' hp => hp.1
  refine baseConstructor_realized W A C hp hbase hi hexprs hfit hwhole.left.left hat ?_
  intro s₁ m₁ hat₁ hk
  have hlength : (Instr.load 0 :: codes.flatten ++
      [Instr.invoke (TypeId.index p) i, .pop]).length = 0 + codes.flatten.length + 3 := by
    simp
  have hfront := hwhole.left.right
  have hend := hwhole.right
  rw [List.length_append, hlength] at hend
  rw [hlength] at hemits hfront
  rw [Nat.zero_add (_ + 3)] at hfront
  rw [Nat.zero_add (_ + 3 + _)] at hend
  have hrun := stmt_realized W A C hcls d.body hproper hbody (hnames ▸ hemits) hfront hat₁
  exact (result_realized hend hrun).mono fun v s' m' hp =>
    ⟨⟨hp.machine, hk.trans hp.keeps, hp.typed⟩, trivial⟩

/-- The constructor that a class without one gets. -/
theorem implicitConstructor_realized (W : WellTyped a) (A : Assembled a image)
    (C : CallsRealized a image n call) {id p i : Nat} {base : Method} {chunk : Chunk} {this : Value}
    {h : Heap} (hp : a.classes.parent? id = some p)
    (hbase : a.classes.constructor? p = some base) (hparams : base.params = [])
    (hi : image.members[i]? = some .constructor)
    (hchunk : EmitsChunk image.pools a.classes [] [.load 0, .invoke (TypeId.index p) i, .pop] none chunk)
    (H : HeapRel a.classes s.objects h) (hthis : this.HasType a.classes s.objects (.plain id)) :
    Realizes image (HeapTyped a) n (Evaluate.constructor a.classes call id this n p none [] s)
      ⟨.start chunk [this], f :: callers, h, s.console⟩
      (Returned a.classes f callers s .unit) := by
  obtain ⟨code, hcode, rfl⟩ := hchunk.code
  have hwhole := CodeAt.whole hcode
  rw [List.append_nil] at hwhole
  have hat := start_at (f :: callers) rfl hchunk.room H hthis
    (show ValuesTyped a.classes s.objects [] [] from .nil)
  have hcallers : (Activation.start chunk (f :: callers) id this).callers = f :: callers := rfl
  rw [Evaluate.constructor]
  refine (inside_realized (P := fun _ => True) hcallers ?_).mono fun v s' m' hp => hp.1
  refine baseConstructor_realized W A C hp hbase hi exprs_nil (hparams ▸ .nil) hwhole.left hat ?_
  intro s₁ m₁ hat₁ hk
  obtain ⟨L, h, rfl, hK⟩ := hat₁
  refine .step hK.heapTyped (step_pushNull hwhole.right.head) (.pure ⟨⟨?_, hk, .null⟩, trivial⟩)
  exact ⟨_, _, L, h, rfl, hwhole.right.tail.head, hK.heap⟩

/-! ## Field initializers -/

/-- The call of the parent's initializer. That of the root only returns the object. -/
theorem prepare_realized (W : WellTyped a) (A : Assembled a image) (C : CallsRealized a image n call)
    {p i : Nat} (hinst : a.classes.Inheritable p) (hp : a.classes.parent? K.owner = some p)
    (hi : image.members[i]? = some .initializer)
    (hcode : CodeAt K.code ip [.load 0, .invoke (TypeId.index p) i, .pop])
    (hm : K.At a.classes visible ip [] s m) :
    Realizes image (HeapTyped a) n (Evaluate.prepare call p K.this s) m fun _ s' m' =>
      K.At a.classes visible (ip + 3) [] s' m' ∧ Keeps s.objects s'.objects := by
  obtain ⟨L, h, rfl, hK⟩ := hm
  refine .step hK.heapTyped (step_load hcode.head hK.locals.this_slot) ?_
  have hstep {owner : Nat} {body : Body}
      (hr : image.resolve? (TypeId.index p) i = some (owner, body)) (hargs : body.arguments = 1) :
      Machine.step image ⟨⟨K.code, ip + 1, [K.this], L⟩, K.callers, h, s.console⟩ =
        Machine.call image ⟨⟨K.code, ip + 1 + 1, [], L⟩, K.callers, h, s.console⟩ body [K.this] := by
    have hlen : body.arguments = [K.this].length := hargs
    simpa using step_invoke hcode.tail.head hr hlen
  rcases resolve_initializer W A hinst hi with ⟨hb, hr⟩ | ⟨hu, body, hr, hbody⟩
  · rw [Evaluate.prepare, if_pos hb]
    refine .step hK.heapTyped (hstep hr rfl) ?_
    exact .step hK.heapTyped (step_pop hcode.tail.tail.head) (.pure ⟨⟨L, h, rfl, hK⟩, .refl⟩)
  · rw [Evaluate.prepare, if_neg hu]
    have hargs : body.arguments = 1 := by
      cases hbody with
      | builtin hb =>
        exact absurd (Nat.lt_of_lt_of_le (List.getElem?_eq_some_iff.mp hb).1 (by decide)) hu
      | user _ _ _ _ himpl =>
        generalize hkey : MemberKey.initializer = key at himpl
        cases himpl with
        | initializer _ _ _ hargs => exact hargs
        | @method md =>
          cases hn : md.name <;> simp [MethodName.key, hn] at hkey
        | constructor | implicitConstructor => cases hkey
    have hthis : K.this.HasType a.classes s.objects (.plain p) := by
      refine hK.receiver.assign W.rooted ?_
      exact ClassTable.isSubclass_parent W.rooted hp
    refine (C.push hbody .initializer hK .refl hthis .nil hK.heapTyped (hstep hr hargs)).bind ?_
    rintro w s₁ m₁ ⟨hret, _⟩
    obtain ⟨L₁, h₁, rfl, hK₁⟩ := hret.reached
    exact .step hK₁.heapTyped (step_pop hcode.tail.tail.head)
      (.pure ⟨⟨L₁, h₁, rfl, hK₁⟩, hret.keeps⟩)

/-- The fields that a class declares are initialized in the order of the text. -/
theorem fields_realized (W : WellTyped a) (A : Assembled a image) (C : CallsRealized a image n call)
    {r : ClassRecord} (hr : a.classes.record? K.owner = some r) (hb : r.isBuiltin = false) :
    ∀ (ds : List (FieldDecl Typing)) {codes : List (List Instr)} {ip : Nat} {s : EvalState}
      {m : Machine}, (∀ d ∈ ds, FieldTyped a.classes K.owner r d) →
      List.Forall₂ (EmitsField image.pools a.classes K.owner) ds codes →
      CodeAt K.code ip codes.flatten → K.At a.classes [] ip [] s m →
      Realizes image (HeapTyped a) n
        (Evaluate.initializeFields a.classes call K.owner K.this ds s) m fun _ s' m' =>
          K.At a.classes [] (ip + codes.flatten.length) [] s' m' ∧ Keeps s.objects s'.objects
  | [], codes, ip, s, m, _, hcodes, _, hm => by
    cases hcodes
    exact .pure ⟨hm, .refl⟩
  | d :: ds, codes, ip, s, m, hds, hcodes, hcode, hm => by
    obtain ⟨hd, hds⟩ := List.forall_mem_cons.mp hds
    obtain _ | @⟨_, code, _, codes, hc, hcodes⟩ := hcodes
    rw [List.flatten_cons] at hcode ⊢
    rw [List.length_append, ← Nat.add_assoc]
    have hrest {s₁ : EvalState} {m₁ : Machine} (hat : K.At a.classes [] (ip + code.length) [] s₁ m₁)
        (hk : Keeps s.objects s₁.objects) :=
      (fields_realized W A C hr hb ds hds hcodes hcode.right hat).mono fun _ _ _ hp =>
        (⟨hp.1, hk.trans hp.2⟩ : _ ∧ Keeps s.objects _)
    cases hc with
    | blank hnone =>
      rw [Evaluate.initializeFields, hnone]
      exact hrest hm .refl
    | @initial e owner f code hsome hf hc =>
      obtain ⟨g, hg, hinit⟩ := hd
      obtain ⟨υ, he, hfit⟩ := hinit e hsome
      cases (ClassTable.lookupField_own hr hg).symm.trans hf
      rw [Evaluate.initializeFields, hsome, hf]
      have hproper := a.classes.inside_proper K.owner .unit
      have hbuiltin : a.classes.isBuiltin K.owner = false := by simp [ClassTable.isBuiltin, hr, hb]
      have hbehind := hcode.left.right
      have hlength : ip + (Instr.load 0 :: code ++ [Instr.setField f.offset, .pop]).length =
          ip + (Instr.load 0 :: code).length + 1 + 1 := by
        simp
        omega
      have hip : ip + (Instr.load 0 :: code).length = ip + 1 + code.length := by
        simp
        omega
      rw [hlength, hip] at hrest ⊢
      rw [hip] at hbehind
      obtain ⟨L, h, rfl, hK⟩ := hm
      refine .step hK.heapTyped (step_load hcode.left.left.head hK.locals.this_slot) ?_
      have hat : K.At a.classes [] (ip + 1) [K.this] s _ := ⟨L, h, rfl, hK⟩
      refine (expr_realized W A C hproper.inside (ClassTable.lt_of_record hr) hproper.named e he hc
        hcode.left.left.tail hat).bind ?_
      intro v s₁ m₁ hp
      have hat₁ : K.At a.classes [] (ip + 1 + code.length) [v, K.this] s₁ m₁ := hp.reached
      obtain ⟨_, _, _, hK₁⟩ := id hat₁
      refine (write_realized W hf hbuiltin hbehind.head hat₁ hK₁.receiver
        (hp.typed.assign W.rooted hfit)).bind ?_
      rintro _ s₂ m₂ ⟨hat₂, hk⟩
      obtain ⟨L₂, h₂, rfl, hK₂⟩ := hat₂
      refine .step hK₂.heapTyped (step_pop hbehind.tail.head) ?_
      exact hrest ⟨L₂, h₂, rfl, hK₂⟩ (hp.keeps.trans hk)

/-- The initializer of a class runs that of its parent and then initializes its own fields. -/
theorem initializer_realized (W : WellTyped a) (A : Assembled a image)
    (C : CallsRealized a image n call) {id p i : Nat} {r : ClassRecord} {d : ClassDecl Typing}
    {chunk : Chunk} {codes : List (List Instr)} {this : Value} {h : Heap}
    (hc : ClassTyped a.classes id p r d) (hi : image.members[i]? = some .initializer)
    (hcodes : List.Forall₂ (EmitsField image.pools a.classes id) d.fields codes)
    (hcode : chunk.code.toList =
      [Instr.load 0, .invoke (TypeId.index p) i, .pop] ++ codes.flatten ++ [Instr.load 0, .return])
    (hlocals : chunk.locals = 1) (H : HeapRel a.classes s.objects h)
    (hthis : this.HasType a.classes s.objects (.plain id)) :
    Realizes image (HeapTyped a) n (Evaluate.inside [] (do
        Evaluate.prepare call p this
        Evaluate.initializeFields a.classes call id this d.fields
        return this) s)
      ⟨.start chunk [this], f :: callers, h, s.console⟩
      fun v s' m' => Returned a.classes f callers s (.plain id) v s' m' ∧ v = this := by
  have hwhole := CodeAt.whole hcode
  have hroom : ([] : List Param).length + 1 ≤ chunk.locals := Nat.le_of_eq hlocals.symm
  have hat := start_at (f :: callers) rfl hroom H hthis
    (show ValuesTyped a.classes s.objects [] [] from .nil)
  have hcallers : (Activation.start chunk (f :: callers) id this).callers = f :: callers := rfl
  have hparent : a.classes.parent? id = some p := hc.parent_eq
  refine inside_realized (P := (· = this)) hcallers ?_
  refine (prepare_realized W A C hc.inheritable hparent hi hwhole.left.left hat).bind ?_
  rintro _ s₁ m₁ ⟨hat₁, hk₁⟩
  refine (fields_realized W A C hc.record hc.notBuiltin d.fields hc.fields hcodes hwhole.left.right
    hat₁).bind ?_
  rintro _ s₂ m₂ ⟨hat₂, hk₂⟩
  obtain ⟨L, h, rfl, hK⟩ := hat₂
  have hend := hwhole.right
  rw [List.length_append, ← Nat.add_assoc] at hend
  refine .step hK.heapTyped (step_load hend.head hK.locals.this_slot) (.pure ⟨⟨?_, ?_, ?_⟩, rfl⟩)
  · exact ⟨_, _, L, h, rfl, hend.tail.head, hK.heap⟩
  · exact hk₁.trans hk₂
  · exact hK.receiver

/-! ## All members -/

/-- A class declares a method once. -/
theorem ClassTyped.find_method {id p : Nat} {r : ClassRecord} {d : ClassDecl Typing}
    (hc : ClassTyped a.classes id p r d) {md : MethodDecl Typing} (hmd : md ∈ d.methods) :
    d.methods.find? (·.name.key == md.name.key) = some md := by
  -- The keys of the methods are among those of the declarations, and no two of these are the same.
  have hsub : (d.methods.map fun md => (md.name.key, md.params.length)).Sublist
      (d.members.filterMap (·.signature?)) := by
    rw [ClassDecl.methods, List.map_filterMap]
    induction d.members with
    | nil => exact .slnil
    | cons mem members ih =>
      cases mem with
      | field _ | method _ => simpa [MemberDecl.signature?] using ih
      | constructor c => simpa [MemberDecl.signature?] using ih.trans (List.sublist_cons_self _ _)
  have hkeys : (d.methods.map (·.name.key)).Sublist
      ((d.members.filterMap (·.signature?)).map (·.1)) := by
    simpa [Function.comp_def] using hsub.map (·.1)
  exact find_of_nodup (hkeys.nodup hc.registered.keys_nodup) hmd

theorem MethodName.key_inherited (name : MethodName) : name.key.isInherited = true := by
  cases name <;> rfl

theorem MethodName.key_ne {key : MemberKey} (h : key.isInherited = false) (name : MethodName) :
    key ≠ name.key := by
  rintro rfl
  rw [name.key_inherited] at h
  cases h

/-- What a declared class has under a key is realized. -/
theorem declared_realized (W : WellTyped a) (A : Assembled a image) (C : CallsRealized a image n call)
    {id p : Nat} {r : ClassRecord} {d : ClassDecl Typing} {key : MemberKey} {chunk : Chunk}
    {σ : List Ty} {this : Value} {args : List Value} {h : Heap} (hc : ClassTyped a.classes id p r d)
    (himpl : Implements image.pools a.classes id (TypeId.index p) d key (.compiled chunk))
    (hsig : Signature a.classes id key σ ρ) (H : HeapRel a.classes s.objects h)
    (hthis : this.HasType a.classes s.objects (.plain id))
    (hargs : ValuesTyped a.classes s.objects args σ) :
    Realizes image (HeapTyped a) n (Evaluate.declared a.classes call id this n p d key args s)
      ⟨.start chunk (this :: args), f :: callers, h, s.console⟩ fun v s' m' =>
        Returned a.classes f callers s ρ v s' m' ∧ (key = .initializer → v = this) := by
  have hparent : a.classes.parent? id = some p := hc.parent_eq
  cases himpl with
  | initializer hi hcodes hcode _ hlocals =>
    cases hsig with
    | initializer =>
      cases hargs
      exact (initializer_realized W A C hc hi hcodes hcode hlocals H hthis).mono
        fun v s' m' hp => ⟨hp.1, fun _ => hp.2⟩
    | method _ _ hinh => cases hinh
  | @method md _ hmd hchunk =>
    have hinh := md.name.key_inherited
    have hfind := hc.find_method hmd
    have heval : Evaluate.declared a.classes call id this n p d md.name.key args =
        Evaluate.method a.classes call id this n md args := by
      unfold Evaluate.declared
      split
      · next hk => rw [hk] at hinh; cases hinh
      · next hk => rw [hk] at hinh; cases hinh
      · rw [hfind]
    rw [heval]
    generalize hk : md.name.key = key at hsig hinh
    cases hsig with
    | initializer | constructor => cases hinh
    | method hr hm _ =>
      rw [hc.record] at hr
      cases hr
      subst hk
      refine (method_realized W A C hc.record (hc.methods md hmd) hm hchunk H hthis hargs).mono
        fun v s' m' hp => ⟨hp, fun hinit => ?_⟩
      rw [hinit] at hinh
      cases hinh
  | @constructor c _ before hhead hbefore hchunk =>
    cases hsig with
    | method _ _ hinh => cases hinh
    | constructor hctor =>
      obtain ⟨meth, base, hm, hbase, htyped⟩ := hc.constructor
      rw [ClassTable.constructor?, hc.record, Option.bind_some, hm] at hctor
      cases hctor
      rw [hhead] at htyped
      obtain ⟨hlen, env, env', hbound, hbaseArgs, hbody⟩ := htyped
      rw [Evaluate.declared, hhead]
      cases hbefore with
      | call hcodes hi =>
        exact (constructor_realized W A C hc.record hparent hm hbase hlen hbound hbaseArgs hbody hcodes
          hi hchunk H hthis hargs).mono fun v s' m' hp => ⟨hp, fun hinit => by cases hinit⟩
  | implicitConstructor hhead hbefore hchunk =>
    cases hsig with
    | method _ _ hinh => cases hinh
    | constructor hctor =>
      obtain ⟨meth, base, hm, hbase, htyped⟩ := hc.constructor
      rw [ClassTable.constructor?, hc.record, Option.bind_some, hm] at hctor
      cases hctor
      rw [hhead] at htyped
      rw [htyped.1] at hargs
      cases hargs
      rw [Evaluate.declared, hhead]
      cases hbefore with
      | call hcodes hi =>
        cases hcodes
        exact (implicitConstructor_realized W A C hparent hbase htyped.2 hi hchunk H hthis).mono
          fun v s' m' hp => ⟨hp, fun hinit => by cases hinit⟩

/-- Members are realized if the calls in them are. The call itself is a step of the machine. -/
theorem body_realized (W : WellTyped a) (A : Assembled a image) (C : CallsRealized a image n call) :
    CallsRealized a image (n + 1) (Evaluate.member a call n) := by
  intro owner key body σ ρ this args s f callers h m hbody hsig H hthis hargs hG hstep
  cases hbody with
  | @builtin b bm hb hm hkey hnative =>
    subst hkey hnative
    have hfind : b.methods.find? (·.key == bm.key) = some bm := by
      cases hf : b.methods.find? (·.key == bm.key) with
      | none => exact absurd (List.find?_eq_none.mp hf bm hm) (by simp)
      | some bm' =>
        rw [builtin_unique hb (List.mem_of_find?_eq_some hf) hm (by simpa using List.find?_some hf)]
    have heval : Evaluate.member a call n owner bm.key (this :: args) =
        Evaluate.native a.classes bm.native (this :: args) := by
      simp [Evaluate.member, hb, hfind]
    rw [heval]
    exact CallsLemmas.native_realizes W A hb hm hsig H hthis hargs hG hstep
  | @user i p parent d howner hd hp hk himpl =>
    have hu : ¬ owner < TypeId.first := howner ▸ Nat.not_lt_of_le (Nat.le_add_right _ _)
    have hbuiltin : Builtin.classes[owner]? = none :=
      List.getElem?_eq_none (Nat.le_trans (by decide) (Nat.le_of_not_lt hu))
    have hd' : a.program.classes[owner - TypeId.first]? = some d := by
      rw [howner, Nat.add_sub_cancel_left, hd]
    obtain ⟨p', r, hc⟩ := W.each i d hd
    rw [← howner] at hc
    have hp' : a.classes.parent? owner = some p' := hc.parent_eq
    obtain rfl := Option.some.inj (hp.symm.trans hp')
    obtain ⟨_, rfl⟩ := TypeId.ne_unit_of_construct hk
    have heval : Evaluate.member a call n owner key (this :: args) =
        Evaluate.declared a.classes call owner this n p d key args := by
      simp [Evaluate.member, hbuiltin, hd', hp]
    rw [heval]
    obtain ⟨chunk, rfl⟩ : ∃ chunk, body = .compiled chunk := by
      cases himpl <;> exact ⟨_, rfl⟩
    exact .step_succ hG hstep (declared_realized W A C hc himpl hsig H hthis hargs)

/-- Calls of any depth are realized. -/
theorem invoke_realized (W : WellTyped a) (A : Assembled a image) :
    ∀ n, CallsRealized a image n (Evaluate.invoke a n)
  | 0 => fun _ _ _ _ _ _ _ _ _ _ _ _ _ _ _ _ _ _ _ => .unfinished
  | n + 1 => body_realized W A (invoke_realized W A n)

end

end ClassLang
