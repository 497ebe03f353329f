import ClassLang.Proofs.Layout
import ClassLang.Proofs.Lookups
import ClassLang.Proofs.Registration
import ClassLang.Proofs.Threading
import ClassLang.Proofs.Typed

/-!
# Well-typed programs

What is known of a program that passes the check (`program_wellTyped`): its class table holds the
built-in classes and one class for each declaration, laid out; the entries of a class tell its
declarations; and every member is well typed. Later files use these facts and nothing else of the check.

A method is compared with the nearest inherited one only. `WellTyped.lookup_conforms` carries the
comparison to ancestors at any distance.
-/

namespace ClassLang

/-- The environment in which the members of a class are checked. -/
def ClassTable.inside (t : ClassTable) (id : TypeId) (result : Ty) : Environment :=
  (Environment.outside t).beginMember id result

/-- A method fits in the place of an inherited one. -/
structure Method.Conforms (t : ClassTable) (m inherited : Method) : Prop where
  access : m.access.narrowness ≤ inherited.access.narrowness
  params : t.Fit inherited.params m.params
  returns : t.isAssignable m.returns inherited.returns = true

/-- The environment behind the parameters of a member. -/
structure ParamsBound (t : ClassTable) (id : TypeId) (result : Ty) (params : List Param)
    (types : List Ty) (env : Environment) : Prop where
  inside : env.Inside t id result
  visible : env.visible = (params.zipWith (fun p τ => ⟨p.name.name, τ⟩) types).reverse

/-- A field is entered, and its initializer fits it. -/
def FieldTyped (t : ClassTable) (id : TypeId) (r : ClassRecord) (d : FieldDecl Typing) : Prop :=
  ∃ f, r.field? d.name.name = some f ∧ ∀ e, d.initializer = some e →
    ∃ υ, Typed (t.inside id .unit) e υ ∧ t.isAssignable υ f.type = true

/-- A method is entered, fits in the place of the one that its class inherits, and has a well-typed
body. -/
def MethodTyped (t : ClassTable) (id : TypeId) (r : ClassRecord) (d : MethodDecl Typing) : Prop :=
  ∃ m, r.method? d.name.key = some m ∧ m.params.length = d.params.length ∧
    (∀ owner inherited, (t.parent? id).bind (t.lookupMethod? · d.name.key) = some (owner, inherited) →
      m.Conforms t inherited) ∧
    ∃ env env', ParamsBound t id m.returns d.params m.params env ∧ StmtTyped env d.body env'

/-- A constructor is entered, calls the parent's with fitting arguments and has a well-typed body. The
implicit constructor calls the parent's without arguments. -/
def ConstructorTyped (t : ClassTable) (id parent : TypeId) (r : ClassRecord)
    (d : Option (ConstructorDecl Typing)) : Prop :=
  ∃ m base, r.method? .constructor = some m ∧ t.constructor? parent = some base ∧
    match d with
    | none => m.params = [] ∧ base.params = []
    | some d => m.params.length = d.params.length ∧
      ∃ env env', ParamsBound t id .unit d.params m.params env ∧
        ArgumentsTyped env (d.baseArguments.getD []) base.params ∧ StmtTyped env d.body env'

/-- A class is in the table behind a parent that may be inherited from, and its members are well
typed. -/
structure ClassTyped (t : ClassTable) (id p : Nat) (r : ClassRecord) (d : ClassDecl Typing) :
    Prop where
  record : t.record? id = some r
  name : r.name = d.name.name
  notBuiltin : r.isBuiltin = false
  parent : r.parent = some p
  inheritable : t.Inheritable p
  registered : Registered d r
  fields : ∀ f ∈ d.fields, FieldTyped t id r f
  methods : ∀ m ∈ d.methods, MethodTyped t id r m
  constructor : ConstructorTyped t id p r d.constructors.head?

theorem ClassTyped.parent_eq {t : ClassTable} {id p : Nat} {r : ClassRecord} {d : ClassDecl Typing}
    (h : ClassTyped t id p r d) : t.parent? id = some p :=
  (ClassTable.parent_of_record h.record).trans h.parent

/-- A program as the check leaves it. -/
structure WellTyped (a : Analysis) : Prop where
  size : a.classes.size = TypeId.first + a.program.classes.length
  rooted : a.classes.Rooted
  placed : a.classes.AllPlaced
  named : a.classes.TypesNamed
  builtin : ∀ id : Nat, id < TypeId.first →
    a.classes.record? id = ClassTable.standard.record? id
  each : ∀ (i : Nat) d, a.program.classes[i]? = some d →
    ∃ p r, ClassTyped a.classes (TypeId.first + i) p r d

namespace Check

/-! ## Members -/

theorem overrideParams_ok {t : ClassTable} {owner : TypeId} {is os : List Ty} {ps : List Param}
    {u : Unit} (his : os.length = is.length) (hps : os.length = ps.length)
    (h : overrideParams t owner is os ps = .ok u) : t.Fit is os := by
  induction is generalizing os ps with
  | nil => simp only [List.length_nil, List.length_eq_zero_iff] at his; subst his; exact .nil
  | cons i is ih =>
    match os, ps with
    | o :: os, p :: ps =>
      simp only [overrideParams] at h
      split at h
      · next hfit => exact .cons hfit (ih (Nat.succ.inj his) (Nat.succ.inj hps) h)
      · cases h

theorem overrides_ok {t : ClassTable} {id : TypeId} {m : Method} {d : MethodDecl Span} {u : Unit}
    (hlen : m.params.length = d.params.length) (h : overrides t id m d = .ok u)
    {owner : TypeId} {inherited : Method}
    (hin : (t.parent? id).bind (t.lookupMethod? · m.key) = some (owner, inherited)) :
    m.Conforms t inherited := by
  unfold overrides at h
  rw [hin] at h
  cases hov : d.isOverride with
  | false => simp [hov] at h
  | true =>
    simp only [hov] at h
    split at h
    · exact absurd h (by simp)
    · next haccess =>
      split at h
      · exact absurd h (by simp)
      · next harity =>
        simp only [bind_eq_ok] at h
        obtain ⟨_, hparams, h⟩ := h
        simp only [ne_eq, Decidable.not_not] at harity
        split at h
        · next hreturns =>
          exact ⟨Nat.le_of_not_lt haccess, overrideParams_ok harity hlen hparams, hreturns⟩
        · exact absurd h (by simp)

theorem bindParams_ok {t : ClassTable} {id : TypeId} {result : Ty} {env : Environment}
    {ps : List Param} {types : List Ty} (hin : env.Inside t id result)
    (h : (bindParams env ps types).errors = []) :
    (bindParams env ps types).env.Inside t id result ∧ (bindParams env ps types).env.visible =
      (ps.zipWith (fun p τ => ⟨p.name.name, τ⟩) types).reverse ++ env.visible := by
  induction ps generalizing env types with
  | nil => exact ⟨by simpa [bindParams] using hin, by simp [bindParams]⟩
  | cons p ps ih =>
    cases types with
    | nil => exact ⟨by simpa [bindParams] using hin, by simp [bindParams]⟩
    | cons τ types =>
      cases hb : env.bind p.name τ with
      | error e => simp [bindParams, hb] at h
      | ok env' =>
        simp only [bindParams, hb] at h ⊢
        obtain ⟨hin', hvisible⟩ := ih (hin.bind hb) h
        refine ⟨hin', ?_⟩
        rw [hvisible, Environment.bind_visible hb]
        simp

theorem params_bound {t : ClassTable} {id : TypeId} {result : Ty} {ps : List Param}
    {types : List Ty} (h : (bindParams (t.inside id result) ps types).errors = []) :
    ParamsBound t id result ps types (bindParams (t.inside id result) ps types).env := by
  have hinside : (t.inside id result).Inside t id result := ⟨rfl, rfl, rfl⟩
  obtain ⟨hin, hvisible⟩ := bindParams_ok hinside h
  exact ⟨hin, by simpa [ClassTable.inside, Environment.outside, Environment.beginMember,
    Environment.visible, Scopes.start] using hvisible⟩

theorem errorsOf_eq_nil {α : Type} {x : Except SemanticError α} (h : errorsOf x = []) :
    ∃ a, x = .ok a := by
  cases x with
  | ok a => exact ⟨a, rfl⟩
  | error e => cases h

/-- The call of the parent's constructor. -/
theorem baseCall_ok {env : Environment} {id parent : TypeId} {es : List (Expr Span)} {s : Span}
    {es' : List (Expr Typing)} (hp : env.classes.parent? id = some parent)
    (h : baseCall env id es s = .ok es') :
    ∃ base, env.classes.constructor? parent = some base ∧ ArgumentsTyped env es' base.params := by
  simp only [baseCall, hp] at h
  split at h
  · cases h
  · next base hbase =>
    simp only [bind_eq_ok, TypedLemmas.argumentCount_ok] at h
    obtain ⟨_, _, _, hcount, hes⟩ := h
    exact ⟨base, hbase, inferArguments_typed hcount hes⟩

/-- Without arguments there is nothing to check. -/
theorem baseCall_nil {env : Environment} {id parent : TypeId} {s : Span} {es' : List (Expr Typing)}
    (hp : env.classes.parent? id = some parent) (h : baseCall env id [] s = .ok es') : es' = [] := by
  simp only [baseCall, hp] at h
  split at h
  · cases h
  · simp only [bind_eq_ok] at h
    obtain ⟨_, _, _, _, hes⟩ := h
    unfold inferArguments at hes
    split at hes
    · next heq => cases heq
    · exact (Except.ok.inj hes).symm

section

variable {t : ClassTable} {id parent : Nat} {r : ClassRecord}

theorem fieldDecl_typed {d : FieldDecl Span} {f : Field} (hr : t.record? id = some r)
    (hf : r.field? d.name.name = some f) (h : (fieldDecl t id d).2 = []) :
    FieldTyped t id r (fieldDecl t id d).1 := by
  simp only [fieldDecl, fieldIn, Checked.report, Environment.outside_classes] at h ⊢
  simp only [hr, Option.bind_some, hf] at h ⊢
  cases hd : d.initializer with
  | none => exact ⟨f, hf, by simp⟩
  | some e =>
    simp only [hd] at h ⊢
    cases he : infer ((Environment.outside t).beginMember id .unit) e with
    | error e' => simp [he] at h
    | ok found =>
      obtain ⟨υ, e'⟩ := found
      simp only [he] at h ⊢
      obtain ⟨_, hfit⟩ := errorsOf_eq_nil h
      refine ⟨f, hf, fun e'' heq => ?_⟩
      cases heq
      exact ⟨υ, infer_typed he, TypedLemmas.assignable_ok.mp hfit⟩

theorem methodDecl_typed {d : MethodDecl Span} {m : Method} (hr : t.record? id = some r)
    (hm : r.method? d.name.key = some m) (hlen : m.params.length = d.params.length)
    (h : (methodDecl t id d).2 = []) : MethodTyped t id r (methodDecl t id d).1 := by
  have hkey : m.key = d.name.key := by simpa using List.find?_some hm
  simp only [methodDecl, methodIn, Checked.report, Environment.outside_classes] at h ⊢
  simp only [hr, Option.bind_some, hm] at h ⊢
  cases hov : overrides t id m d with
  | error e => simp [hov] at h
  | ok u =>
    simp only [hov, List.append_eq_nil_iff] at h ⊢
    refine ⟨m, hm, hlen, fun owner inherited hin => ?_, _, _, params_bound h.1.1, stmt_typed h.1.2⟩
    exact overrides_ok hlen hov (hkey ▸ hin)

theorem constructorDecl_typed {d : ConstructorDecl Span} {m : Method} (hr : t.record? id = some r)
    (hp : r.parent = some parent) (hm : r.method? .constructor = some m)
    (hlen : m.params.length = d.params.length) (h : (constructorDecl t id d).2 = []) :
    ConstructorTyped t id parent r (some (constructorDecl t id d).1) := by
  have hown : t.constructor? id = some m := by rw [ClassTable.constructor?, hr]; exact hm
  simp only [constructorDecl, constructorIn, Checked.report, Environment.outside_classes] at h ⊢
  simp only [hown, List.append_eq_nil_iff] at h ⊢
  obtain ⟨⟨hparams, hbase⟩, hbody⟩ := h
  obtain ⟨es', hes⟩ := errorsOf_eq_nil hbase
  have hbound := params_bound hparams
  have hclasses : (bindParams ((Environment.outside t).beginMember id .unit) d.params
      m.params).env.classes = t := hbound.inside.classes
  have hparent : (bindParams ((Environment.outside t).beginMember id .unit) d.params
      m.params).env.classes.parent? id = some parent := by
    rw [hclasses, ClassTable.parent_of_record hr, hp]
  obtain ⟨base, hctor, hargs⟩ := baseCall_ok hparent hes
  rw [hclasses] at hctor
  refine ⟨m, base, hm, hctor, hlen, _, _, hbound, ?_, stmt_typed hbody⟩
  simp only [hes]
  cases hd : d.baseArguments with
  | some es => exact hargs
  | none =>
    rw [hd] at hes
    exact baseCall_nil hparent hes ▸ hargs

/-! ## Classes -/

/-- The check of a member keeps what its entry is made of. -/
theorem member_signature (m : MemberDecl Span) :
    (member t id m).1.fieldName? = m.fieldName? ∧ (member t id m).1.signature? = m.signature? := by
  cases m with
  | field d =>
    refine ⟨?_, rfl⟩
    simp only [member_field, fieldDecl, fieldIn, Checked.report, Environment.outside_classes, MemberDecl.fieldName?]
    split
    · split <;> rfl
    · rfl
  | method d =>
    refine ⟨rfl, ?_⟩
    simp only [member_method, methodDecl, methodIn, Checked.report, Environment.outside_classes, MemberDecl.signature?]
    split
    · rfl
    · split <;> rfl
  | constructor d =>
    refine ⟨rfl, ?_⟩
    simp only [member_constructor, constructorDecl, constructorIn, Checked.report, Environment.outside_classes, MemberDecl.signature?]
    split <;> rfl

/-- What becomes of the members of a class. -/
theorem checked_members (ms : List (MemberDecl Span)) :
    ((ms.map (·, true)).map (enteredMember t id)).map (·.1) = ms.map fun m => (member t id m).1 := by
  simp [enteredMember]

theorem checked_constructors {name : Ident} {parent : Option Ident} {s : Span} (d : ClassDecl Span) :
    (ClassDecl.mk name parent (d.members.map fun m => (member t id m).1) s).constructors =
      d.constructors.map fun c => (constructorDecl t id c).1 := by
  simp only [ClassDecl.constructors]
  rw [List.filterMap_map, List.map_filterMap]
  refine List.filterMap_congr fun m _ => ?_
  cases m <;> rfl

end

end Check

/-- No two declarations have a key in common. -/
theorem Registered.keys_nodup {ν : Type} {d : ClassDecl ν} {r : ClassRecord} (h : Registered d r) :
    ((d.members.filterMap (·.signature?)).map (·.1)).Nodup := by
  have hkeys : r.methods.map (·.key) = (r.methods.map (·.signature)).map (·.1) := by
    simp [Method.signature, Function.comp_def]
  have hnodup := h.methodsNodup
  rw [hkeys, h.methods, List.map_append] at hnodup
  exact (List.nodup_append.mp hnodup).1

/-- The key of an entry finds it, since no other entry has the key. -/
theorem Registered.entry {ν : Type} {d : ClassDecl ν} {r : ClassRecord} (h : Registered d r)
    {s : MemberKey × Nat} (hs : s ∈ r.methods.map (·.signature)) :
    ∃ m, r.method? s.1 = some m ∧ m.params.length = s.2 := by
  obtain ⟨m, hm, rfl⟩ := List.mem_map.mp hs
  exact ⟨m, find_of_nodup h.methodsNodup hm, rfl⟩

/-- The entry of a declared method or constructor. -/
theorem Registered.method_entry {ν : Type} {d : ClassDecl ν} {r : ClassRecord} (h : Registered d r)
    {m : MemberDecl ν} (hm : m ∈ d.members) {s : MemberKey × Nat} (hs : m.signature? = some s) :
    ∃ entry, r.method? s.1 = some entry ∧ entry.params.length = s.2 := by
  refine h.entry ?_
  rw [h.methods]
  exact List.mem_append_left _ (List.mem_filterMap.mpr ⟨m, hm, hs⟩)

theorem Registered.field_entry {ν : Type} {d : ClassDecl ν} {r : ClassRecord} (h : Registered d r)
    {m : MemberDecl ν} (hm : m ∈ d.members) {x : String} (hx : m.fieldName? = some x) :
    ∃ f, r.field? x = some f := by
  have hmem : x ∈ r.fields.map (·.name) := by
    rw [h.fields]
    exact List.mem_filterMap.mpr ⟨m, hm, hx⟩
  obtain ⟨f, hf, rfl⟩ := List.mem_map.mp hmem
  cases hfound : r.field? f.name with
  | some g => exact ⟨g, rfl⟩
  | none => exact absurd (List.find?_eq_none.mp hfound f hf) (by simp)

namespace Check

theorem classDecl_typed {t : ClassTable} {id p : Nat} {r : ClassRecord} {d : ClassDecl Span}
    (hr : t.record? id = some r) (hname : r.name = d.name.name) (hbuiltin : r.isBuiltin = false)
    (hp : r.parent = some p) (hinheritable : t.Inheritable p) (hreg : Registered d r)
    (h : (classDecl t ⟨id, d, d.members.map (·, true), d.constructors.isEmpty⟩).2 = []) :
    ClassTyped t id p r
      (classDecl t ⟨id, d, d.members.map (·, true), d.constructors.isEmpty⟩).1 := by
  simp only [classDecl_eq, List.append_eq_nil_iff, List.flatMap_eq_nil_iff, List.mem_map,
    checked_members] at h ⊢
  obtain ⟨hmembers, himplicit⟩ := h
  have herrors : ∀ m ∈ d.members, (member t id m).2 = [] := fun m hm =>
    hmembers _ ⟨(m, true), ⟨m, hm, rfl⟩, rfl⟩
  have hsame := @member_signature t id
  have hnames : (d.members.map fun m => (member t id m).1).filterMap (·.fieldName?) =
      d.members.filterMap (·.fieldName?) := by
    rw [List.filterMap_map]
    exact List.filterMap_congr fun m _ => (hsame m).1
  have hsigs : (d.members.map fun m => (member t id m).1).filterMap (·.signature?) =
      d.members.filterMap (·.signature?) := by
    rw [List.filterMap_map]
    exact List.filterMap_congr fun m _ => (hsame m).2
  refine ⟨hr, hname, hbuiltin, hp, hinheritable, ?_, ?_, ?_, ?_⟩
  · refine ⟨hreg.fields.trans hnames.symm, hreg.fieldsNodup, ?_, hreg.methodsNodup, ?_⟩
    · rw [hreg.methods, hsigs, checked_constructors, List.isEmpty_map]
    · intro m hm s hs
      obtain ⟨m', hm', rfl⟩ := List.mem_map.mp hm
      exact hreg.fits m' hm' s ((hsame m').2 ▸ hs)
  · intro f hf
    simp only [ClassDecl.fields, List.mem_filterMap, List.mem_map] at hf
    obtain ⟨_, ⟨m, hm, rfl⟩, hf⟩ := hf
    cases m with
    | field d' =>
      cases hf
      obtain ⟨f, hfound⟩ := hreg.field_entry hm rfl
      exact fieldDecl_typed hr hfound (herrors _ hm)
    | method d' | constructor d' => cases hf
  · intro f hf
    simp only [ClassDecl.methods, List.mem_filterMap, List.mem_map] at hf
    obtain ⟨_, ⟨m, hm, rfl⟩, hf⟩ := hf
    cases m with
    | method d' =>
      cases hf
      obtain ⟨m, hfound, hlen⟩ := hreg.method_entry hm rfl
      exact methodDecl_typed hr hfound hlen (herrors _ hm)
    | field d' | constructor d' => cases hf
  · rw [checked_constructors]
    cases hd : d.constructors with
    | nil =>
      simp only [hd, List.isEmpty_nil, ↓reduceIte, implicitConstructor, implicitIn] at himplicit
      obtain ⟨es', hes⟩ := errorsOf_eq_nil himplicit
      have hparent : (t.inside id .unit).classes.parent? id = some p := by
        rw [← hp]
        exact ClassTable.parent_of_record hr
      obtain ⟨base, hctor, τs, hlen, _, hfit⟩ := baseCall_ok hparent hes
      have hmem : (MemberKey.constructor, 0) ∈ r.methods.map (·.signature) := by
        rw [hreg.methods, hd]
        simp
      obtain ⟨m, hm, hzero⟩ := hreg.entry hmem
      refine ⟨m, base, hm, hctor, List.eq_nil_of_length_eq_zero hzero, ?_⟩
      rw [baseCall_nil hparent hes, List.length_nil] at hlen
      rw [List.eq_nil_of_length_eq_zero hlen.symm] at hfit
      exact List.forall₂_nil_left_iff.mp hfit
    | cons c cs =>
      have hc : MemberDecl.constructor c ∈ d.members := by
        have hin : c ∈ d.constructors := by simp [hd]
        obtain ⟨m, hm, hmc⟩ := List.mem_filterMap.mp hin
        cases m with
        | constructor c' => cases hmc; exact hm
        | field _ | method _ => cases hmc
      obtain ⟨m, hfound, hlen⟩ := hreg.method_entry hc rfl
      exact constructorDecl_typed hr hp hfound hlen (herrors _ hc)

/-! ## Programs -/

namespace WellTypedLemmas

/-- The built-in classes are laid out, and no field is inherited among them. -/
theorem standard_placed {id : Nat} (hid : id < TypeId.first) {r : ClassRecord}
    (hr : ClassTable.standard.record? id = some r) : ClassTable.standard.Placed r 0 := by
  have hall : ∀ id < 6, ∀ r ∈ ClassTable.standard.record? id,
      ClassTable.standard.inherited? r = some 0 ∧ r.fieldCount = some r.fields.length ∧
        r.fields.map (·.offset) = List.range r.fields.length := by decide +kernel
  obtain ⟨hin, hcount, hoffsets⟩ := hall id hid r hr
  refine ⟨hin, by rw [hcount, Nat.zero_add], fun i f hf => ?_⟩
  have := congrArg (·[i]?) hoffsets
  obtain ⟨hlt, _⟩ := List.getElem?_eq_some_iff.mp hf
  simp only [List.getElem?_map, hf, List.getElem?_range hlt, Option.map_some,
    Option.some.injEq] at this
  rw [this, Nat.zero_add]

theorem standard_named {id : Nat} (hid : id < TypeId.first) {r : ClassRecord}
    (hr : ClassTable.standard.record? id = some r) :
    (∀ f ∈ r.fields, ClassTable.standard.Names f.type) ∧
      ∀ m ∈ r.methods, (∀ τ ∈ m.params, ClassTable.standard.Names τ) ∧
        ClassTable.standard.Names m.returns := by
  have hall : ∀ id < 6, ∀ r ∈ ClassTable.standard.record? id,
      (∀ f ∈ r.fields, ∀ c ∈ f.type.class?, c < ClassTable.standard.size) ∧
        ∀ m ∈ r.methods, (∀ τ ∈ m.params, ∀ c ∈ τ.class?, c < ClassTable.standard.size) ∧
          ∀ c ∈ m.returns.class?, c < ClassTable.standard.size := by decide +kernel
  exact hall id hid r hr

theorem standard_size : ClassTable.standard.size = TypeId.first := by decide +kernel

/-- Tables with the same parents have the same chains. -/
theorem rooted_of_parents {t t' : ClassTable} (hsize : t'.size = t.size)
    (hparent : ∀ id : Nat, t'.parent? id = t.parent? id) (h : t.Rooted) : t'.Rooted := by
  have heq : t'.parent? = t.parent? := funext hparent
  exact ⟨by rw [heq, hsize]; exact h.chain, by rw [heq, hsize]; exact h.parent_lt⟩

theorem lays_named {t t' : ClassTable} (h : ClassTable.Lays t t') (ht : t.TypesNamed) :
    t'.TypesNamed := by
  intro id r' hr'
  have hid : id < t.size := h.size ▸ ClassTable.lt_of_record hr'
  obtain ⟨r, hr⟩ := ClassTable.exists_record hid
  obtain ⟨fields, count, hlaid, hblank⟩ := h.each id r hr
  rw [hr'] at hlaid
  cases hlaid
  obtain ⟨hfields, hmethods⟩ := ht id r hr
  have hnames : t'.Names = t.Names := by
    funext τ
    simp only [ClassTable.Names, h.size]
  rw [hnames]
  refine ⟨fun f hf => ?_, hmethods⟩
  have hmem : f.type ∈ r.fields.map (·.type) :=
    (ClassTable.names_of_blank hblank).2 ▸ List.mem_map_of_mem hf
  obtain ⟨g, hg, heq⟩ := List.mem_map.mp hmem
  exact heq ▸ hfields g hg

end WellTypedLemmas

open WellTypedLemmas

/-- The table behind the entry of all members: the built-in classes as they were, and a record for each
declaration, not laid out yet. -/
theorem entered_ok {cs : List (ClassDecl Span)} (hbuild : (Hierarchy.build cs).errors = [])
    {entered : List Registration.Entered} {t : ClassTable}
    (hentry : Registration.classList (Hierarchy.build cs).table (Hierarchy.build cs).classes =
      (entered, t, [])) :
    entered = ((List.range' TypeId.first cs.length).zip cs).map
      (fun c => ⟨c.1, c.2, c.2.members.map (·, true), c.2.constructors.isEmpty⟩) ∧
    t.size = TypeId.first + cs.length ∧ t.Rooted ∧ t.TypesNamed ∧
    (∀ id : Nat, id < TypeId.first → t.record? id = ClassTable.standard.record? id) ∧
    ∀ (i : Nat) d, cs[i]? = some d → ∃ (p : Nat) (r : ClassRecord), t.Inheritable p ∧
      t.record? (TypeId.first + i) = some r ∧ r.name = d.name.name ∧ r.isBuiltin = false ∧
      r.parent = some p ∧ r.fieldCount = none ∧ Registered d r := by
  obtain ⟨hclasses, hsize, hrooted, hstandard, huser⟩ := Hierarchy.build_ok hbuild
  generalize Hierarchy.build cs = built at *
  have hids : (built.classes.map (·.1)) = List.range' TypeId.first cs.length := by
    rw [hclasses]
    exact List.map_fst_zip (by simp)
  -- The classes of the program and their places.
  have hat : ∀ (i : Nat) d, cs[i]? = some d → (TypeId.first + i, d) ∈ built.classes := by
    intro i d hd
    have hi : i < cs.length := (List.getElem?_eq_some_iff.mp hd).1
    rw [hclasses]
    refine List.mem_of_getElem? (i := i) ?_
    exact List.getElem?_zip_eq_some.mpr ⟨by simp [hi], hd⟩
  have hof : ∀ c ∈ built.classes, ∃ i, c.1 = TypeId.first + i ∧ cs[i]? = some c.2 := by
    intro c hc
    rw [hclasses] at hc
    obtain ⟨i, hi⟩ := List.mem_iff_getElem?.mp hc
    obtain ⟨h₁, h₂⟩ := List.getElem?_zip_eq_some.mp hi
    obtain ⟨_, hget⟩ := List.getElem?_eq_some_iff.mp h₁
    exact ⟨i, by simpa using hget.symm, h₂⟩
  have hblank : ∀ c ∈ built.classes, ∃ r, built.table.record? c.1 = some r ∧ r.fields = [] ∧
      r.methods = [] := by
    intro c hc
    obtain ⟨i, hi, hd⟩ := hof c hc
    obtain ⟨q, _, hr⟩ := huser i c.2 hd
    exact ⟨_, hi ▸ hr, rfl, rfl⟩
  have hpos : TypeId.first ≤ built.table.size := hsize ▸ Nat.le_add_right _ _
  have hindex : ∀ id : Nat, id < built.table.size → ¬ id < TypeId.first →
      ∃ i, id = TypeId.first + i ∧ i < cs.length := fun id hid hle =>
    ⟨id - TypeId.first, by omega, by omega⟩
  have hnamed : built.table.TypesNamed := by
    intro id r hr
    by_cases hid : id < TypeId.first
    · rw [hstandard id hid] at hr
      have hmono : ∀ τ, ClassTable.standard.Names τ → built.table.Names τ := fun τ h c hc =>
        Nat.lt_of_lt_of_le (h c hc) (standard_size ▸ hpos)
      obtain ⟨hf, hm⟩ := standard_named hid hr
      exact ⟨fun f h => hmono _ (hf f h),
        fun m h => ⟨fun τ hτ => hmono _ ((hm m h).1 τ hτ), hmono _ (hm m h).2⟩⟩
    · obtain ⟨i, rfl, hi⟩ := hindex id (ClassTable.lt_of_record hr) hid
      obtain ⟨q, _, hr'⟩ := huser i _ (List.getElem?_eq_getElem hi)
      rw [hr] at hr'
      cases hr'
      exact ⟨by simp [ClassRecord.empty], by simp [ClassRecord.empty]⟩
  obtain ⟨hentered, hsize', hother, hown⟩ :=
    Registration.classList_ok (by rw [hentry]) (hids ▸ List.nodup_range') hblank
  have hnamed' := Registration.classList_typesNamed hpos hnamed (by rw [hentry])
  rw [hentry] at hentered hsize' hother hown hnamed'
  have hkeep : ∀ id : Nat, id < TypeId.first → t.record? id = built.table.record? id := fun id hid =>
    hother id (by rw [hids, List.mem_range'_1]; omega)
  have hrecord : ∀ (i : Nat) d, cs[i]? = some d → ∃ (p : Nat) (r : ClassRecord), t.Inheritable p ∧
      t.record? (TypeId.first + i) = some r ∧ r.name = d.name.name ∧ r.isBuiltin = false ∧
      r.parent = some p ∧ r.fieldCount = none ∧ Registered d r ∧
      built.table.parent? (TypeId.first + i) = some p := by
    intro i d hd
    obtain ⟨q, hq, hr⟩ := huser i d hd
    obtain ⟨fields, methods, hr', hreg⟩ := hown _ (hat i d hd) _ hr
    refine ⟨q, _, ?_, hr', rfl, rfl, rfl, rfl, hreg, ClassTable.parent_of_record hr⟩
    simpa only [ClassTable.Inheritable, hsize'] using hq
  simp only at hsize'
  refine ⟨hentered.trans (by rw [hclasses]), hsize'.trans hsize, ?_, hnamed',
    fun id hid => (hkeep id hid).trans (hstandard id hid), fun i d hd => ?_⟩
  · refine rooted_of_parents hsize' (fun id => ?_) hrooted
    by_cases hid : id < TypeId.first
    · rw [ClassTable.parent?, hkeep id hid]
      rfl
    · by_cases hlt : id < built.table.size
      · obtain ⟨i, rfl, hi⟩ := hindex id hlt hid
        obtain ⟨q, r, _, hr, _, _, hp, _, _, hp'⟩ := hrecord i _ (List.getElem?_eq_getElem hi)
        rw [hp', ClassTable.parent_of_record hr, hp]
      · have hnone : ∀ t : ClassTable, t.size ≤ id → t.parent? id = none := fun t h => by
          rw [ClassTable.parent?, ClassTable.record?, List.getElem?_eq_none h]
          rfl
        rw [hnone t (by omega), hnone built.table (by omega)]
  · obtain ⟨q, r, hq, hr, hname, hb, hp, hcount, hreg, _⟩ := hrecord i d hd
    exact ⟨q, r, hq, hr, hname, hb, hp, hcount, hreg⟩

/-- The stages of a check without errors. -/
theorem program_ok {p : Program Span} {a : Analysis} (h : program p = .ok a) :
    (Hierarchy.build p.classes).errors = [] ∧ ∃ entered t,
      Registration.classList (Hierarchy.build p.classes).table (Hierarchy.build p.classes).classes =
        (entered, t, []) ∧
      a = ⟨t.layout, ⟨entered.map fun c => (classDecl t.layout c).1, p.span⟩⟩ ∧
      ∀ c ∈ entered, (classDecl t.layout c).2 = [] := by
  simp only [program_eq] at h
  generalize hlist : Registration.classList (Hierarchy.build p.classes).table
    (Hierarchy.build p.classes).classes = listed at h
  obtain ⟨entered, t, errors⟩ := listed
  simp only at h
  split at h
  swap
  · cases h
  next hnone =>
  cases h
  simp only [List.append_eq_nil_iff, List.flatMap_eq_nil_iff, List.mem_map] at hnone
  obtain ⟨⟨hbuild, rfl⟩, hchecked⟩ := hnone
  exact ⟨hbuild, entered, t, rfl, by simp, fun c hc => hchecked _ ⟨c, hc, rfl⟩⟩

/-- Before the layout only the built-in classes are laid out. -/
theorem placedOnce_of_standard {t : ClassTable}
    (hstandard : ∀ id : Nat, id < TypeId.first → t.record? id = ClassTable.standard.record? id)
    (hother : ∀ (id : Nat) r, ¬ id < TypeId.first → t.record? id = some r → r.fieldCount = none) :
    t.PlacedOnce := by
  intro id r hr hcount
  by_cases hid : id < TypeId.first
  · rw [hstandard id hid] at hr
    obtain ⟨hin, hc, hoffsets⟩ := standard_placed hid hr
    refine ⟨0, ?_, hc, hoffsets⟩
    unfold ClassTable.inherited? at hin ⊢
    cases hp : r.parent with
    | none => rfl
    | some q =>
      simp only [hp] at hin ⊢
      have hq : q = TypeId.any := by
        obtain ⟨r', hr', hany, _⟩ := Hierarchy.HierarchyLemmas.standard_record id hid
        rw [hr] at hr'
        cases hr'
        exact hany q hp
      rw [ClassTable.fieldCount?, hstandard q (hq ▸ by decide)]
      exact hin
  · exact absurd (hother id r hid hr) hcount

/-- A program that passes the check is well typed. -/
theorem program_wellTyped {p : Program Span} {a : Analysis} (h : program p = .ok a) :
    WellTyped a := by
  obtain ⟨hbuild, entered, t, hlist, rfl, hchecked⟩ := program_ok h
  obtain ⟨hentered, hsize, hrooted, hnamed, hstandard, huser⟩ := entered_ok hbuild hlist
  have hplaced : t.PlacedOnce := by
    refine placedOnce_of_standard hstandard fun id r hid hr => ?_
    have hlt := ClassTable.lt_of_record hr
    obtain ⟨i, rfl, hi⟩ : ∃ i, id = TypeId.first + i ∧ i < p.classes.length :=
      ⟨id - TypeId.first, by omega, by omega⟩
    obtain ⟨q, r', _, hr', _, _, _, hnone, _⟩ := huser i _ (List.getElem?_eq_getElem hi)
    rw [hr] at hr'
    cases hr'
    exact hnone
  obtain ⟨hlays, hrooted', hplaced'⟩ := ClassTable.layout_placed hrooted hplaced
  have hsize' : t.layout.size = TypeId.first + p.classes.length := hlays.size.trans hsize
  refine ⟨?_, hrooted', hplaced', lays_named hlays hnamed, fun id hid => ?_, fun i d hd => ?_⟩
  · rw [hsize', hentered]
    simp
  · obtain ⟨r, hr, _⟩ := Hierarchy.HierarchyLemmas.standard_record id hid
    have hplaced := standard_placed hid hr
    rw [hr]
    exact hlays.kept id r ((hstandard id hid).trans hr) (by simp [hplaced.count])
  · simp only [hentered, List.getElem?_map, Option.map_eq_some_iff] at hd
    obtain ⟨_, ⟨⟨id, d'⟩, hget, rfl⟩, rfl⟩ := hd
    obtain ⟨h₁, h₂⟩ := List.getElem?_zip_eq_some.mp hget
    obtain ⟨_, hid⟩ := List.getElem?_eq_some_iff.mp h₁
    obtain rfl : id = TypeId.first + i := by simpa using hid.symm
    obtain ⟨q, r, hq, hr, hname, hb, hp, _, hreg⟩ := huser i d' h₂
    obtain ⟨fields, count, hr', hblank⟩ := hlays.each _ r hr
    refine ⟨q, _, classDecl_typed hr' hname hb hp ?_ ?_ ?_⟩
    · simpa only [ClassTable.Inheritable, hlays.size] using hq
    · have hnames := (ClassTable.names_of_blank hblank).1
      exact ⟨hnames.trans hreg.fields, hnames.symm ▸ hreg.fieldsNodup, hreg.methods,
        hreg.methodsNodup, hreg.fits⟩
    · refine hchecked _ ?_
      rw [hentered]
      exact List.mem_map_of_mem (List.mem_of_getElem? hget)

/-- The classes of the annotated tree are those of the text with their members checked. -/
theorem program_classes {p : Program Span} {a : Analysis} (h : program p = .ok a) :
    a.program.classes = ((List.range' TypeId.first p.classes.length).zip p.classes).map fun c =>
      (classDecl a.classes ⟨c.1, c.2, c.2.members.map (·, true), c.2.constructors.isEmpty⟩).1 := by
  obtain ⟨hbuild, entered, t, hlist, rfl, _⟩ := program_ok h
  obtain ⟨rfl, _⟩ := entered_ok hbuild hlist
  exact List.map_map

theorem program_class {p : Program Span} {a : Analysis} (h : program p = .ok a) {i : Nat}
    {d : ClassDecl Span} (hd : p.classes[i]? = some d) :
    a.program.classes[i]? = some (classDecl a.classes
      ⟨TypeId.first + i, d, d.members.map (·, true), d.constructors.isEmpty⟩).1 := by
  have hi : i < p.classes.length := (List.getElem?_eq_some_iff.mp hd).1
  have hget : ((List.range' TypeId.first p.classes.length).zip p.classes)[i]? =
      some (TypeId.first + i, d) :=
    List.getElem?_zip_eq_some.mpr ⟨by simp [hi], hd⟩
  rw [program_classes h, List.getElem?_map, hget]
  rfl

/-- The constructors of a checked class have the parameters that they had. -/
theorem checked_params {t : ClassTable} {id : TypeId} {d : ClassDecl Span} {c : ConstructorDecl Typing}
    (hc : c ∈ (classDecl t
      ⟨id, d, d.members.map (·, true), d.constructors.isEmpty⟩).1.constructors) :
    ∃ c' ∈ d.constructors, c.params = c'.params := by
  simp only [classDecl_eq, checked_members, checked_constructors, List.mem_map] at hc
  obtain ⟨c', hc', rfl⟩ := hc
  refine ⟨c', hc', ?_⟩
  simp only [constructorDecl, constructorIn, Checked.report, Environment.outside_classes]
  split <;> rfl

/-- A class is found under its name. -/
theorem program_found {p : Program Span} {a : Analysis} (h : program p = .ok a) {i : Nat}
    {d : ClassDecl Span} (hd : p.classes[i]? = some d) :
    a.classes.find? d.name.name = some (TypeId.first + i) := by
  have W := program_wellTyped h
  have hlen : a.program.classes.length = p.classes.length := by simp [program_classes h]
  have hdeclared : (Hierarchy.declareAll .standard p.classes).errors = [] := by
    have hbuild := (program_ok h).1
    simp only [Hierarchy.build, List.append_eq_nil_iff] at hbuild
    exact hbuild.1.1
  have hname : ∀ (i : Nat) d, p.classes[i]? = some d →
      (a.classes.record? (TypeId.first + i)).map (·.name) = some d.name.name := by
    intro i d hd
    obtain ⟨_, r, hc⟩ := W.each i _ (program_class h hd)
    rw [hc.record, Option.map_some, hc.name]
    rfl
  -- The names of the table are those of the declarations, and those are all different.
  have hnames : a.classes.records.map (·.name) =
      (Hierarchy.declareAll .standard p.classes).table.records.map (·.name) := by
    obtain ⟨hsize, hstandard, huser⟩ :=
      Hierarchy.HierarchyLemmas.record_declared (Hierarchy.declareAll_ok hdeclared).2
    refine List.ext_getElem? fun j => ?_
    simp only [List.getElem?_map]
    by_cases hj : j < TypeId.first
    · exact congrArg _ ((W.builtin j hj).trans (hstandard j hj).symm)
    · obtain ⟨k, rfl⟩ : ∃ k, j = TypeId.first + k := ⟨j - TypeId.first, by omega⟩
      cases hk : p.classes[k]? with
      | some d =>
        have hdecl := congrArg (Option.map (·.name)) (huser k d hk)
        exact (hname k d hk).trans hdecl.symm
      | none =>
        have hge := List.getElem?_eq_none_iff.mp hk
        have hle : TypeId.first + p.classes.length ≤ TypeId.first + k := Nat.add_le_add_left hge _
        rw [List.getElem?_eq_none (Nat.le_trans (Nat.le_of_eq (W.size.trans (by rw [hlen]))) hle),
          List.getElem?_eq_none (Nat.le_trans (Nat.le_of_eq hsize) hle)]
  have hnodup : (a.classes.records.map (·.name)).Nodup :=
    hnames ▸ Hierarchy.declareAll_names hdeclared (by decide +kernel)
  exact (Hierarchy.find_iff hnodup).mpr (Option.map_eq_some_iff.mp (hname i d hd))

end Check

/-! ## Inherited methods -/

/-- A key of a method or an operator, which subclasses inherit. -/
def MemberKey.isInherited : MemberKey → Bool
  | .named _ | .binary _ | .unary _ => true
  | .constructor | .initializer => false

namespace Method.Conforms

variable {t : ClassTable} {m m' m'' : Method}

theorem refl (hp : ∀ τ ∈ m.params, t.Names τ) (hr : t.Names m.returns) : m.Conforms t m where
  access := Nat.le_refl _
  params := List.forall₂_same.mpr fun τ hτ => ClassTable.isAssignable_refl (hp τ hτ)
  returns := ClassTable.isAssignable_refl hr

theorem trans (ht : t.Rooted) (h : m.Conforms t m') (h' : m'.Conforms t m'') : m.Conforms t m'' where
  access := Nat.le_trans h.access h'.access
  params := by
    have hp := h.params
    have hp' := h'.params
    unfold ClassTable.Fit at hp hp' ⊢
    generalize m.params = ps, m'.params = qs, m''.params = rs at hp hp' ⊢
    induction hp' generalizing ps with
    | nil => cases hp; exact .nil
    | cons hrq _ ih =>
      cases hp with
      | cons hqp hp => exact .cons (ClassTable.isAssignable_trans ht hrq hqp) (ih _ hp)
  returns := ClassTable.isAssignable_trans ht h.returns h'.returns

end Method.Conforms

namespace WellTyped

open ClassTable

variable {a : Analysis} {id : Nat} {key : MemberKey}

/-- The place of a class that is not built in. -/
theorem user_class (h : WellTyped a) (hid : id < a.classes.size) (hu : ¬ id < TypeId.first) :
    ∃ i d p r, id = TypeId.first + i ∧ a.program.classes[i]? = some d ∧
      ClassTyped a.classes id p r d := by
  have hsize := h.size
  obtain ⟨i, rfl⟩ : ∃ i, id = TypeId.first + i := ⟨id - TypeId.first, by omega⟩
  have hi : i < a.program.classes.length := by omega
  obtain ⟨p, r, hc⟩ := h.each i _ (List.getElem?_eq_getElem hi)
  exact ⟨i, _, p, r, rfl, List.getElem?_eq_getElem hi, hc⟩

/-- The types of expressions are about classes of the table, if those of the visible names are. -/
theorem typed_names (h : WellTyped a) {env : Environment} {cls : Nat} {result τ : Ty}
    {e : Expr Typing} (hin : env.Inside a.classes cls result) (hcls : cls < a.classes.size)
    (hvisible : ∀ b ∈ env.visible, a.classes.Names b.type) (he : Typed env e τ) :
    a.classes.Names τ := by
  have hbuiltin {id : Nat} (hid : id < TypeId.first) : a.classes.Names (.plain id) := by
    intro c hc
    cases hc
    exact Nat.lt_of_lt_of_le hid (h.size ▸ Nat.le_add_right _ _)
  have hname {x : String} {τ : Ty} (hx : env.typeOf? x = some τ) : a.classes.Names τ := by
    rw [Environment.typeOf_eq, Option.map_eq_some_iff] at hx
    obtain ⟨b, hb, rfl⟩ := hx
    exact hvisible b (List.mem_of_find?_eq_some hb)
  have hfield {id owner : Nat} {x : String} {f : Field}
      (hf : env.classes.lookupField? id x = some (owner, f)) : a.classes.Names f.type := by
    rw [hin.classes] at hf
    obtain ⟨_, r, hr, hfound⟩ := lookupField_some hf
    exact (h.named _ r hr).1 f (List.mem_of_find?_eq_some hfound)
  have hmethod {id owner : Nat} {key : MemberKey} {m : Method}
      (hm : env.classes.lookupMethod? id key = some (owner, m)) : a.classes.Names m.returns := by
    rw [hin.classes] at hm
    obtain ⟨_, r, hr, hfound⟩ := lookupMethod_some hm
    exact ((h.named _ r hr).2 m (List.mem_of_find?_eq_some hfound)).2
  induction he with
  | number | string | boolean | instanceTest => exact hbuiltin (by decide)
  | null => rintro c ⟨⟩
  | name hx | assignName hx => exact hname hx
  | this hid =>
    rintro c ⟨⟩
    rw [hin.thisClass] at hid
    cases hid
    exact hcls
  | base _ hp =>
    rintro c ⟨⟩
    rw [hin.classes] at hp
    exact h.rooted.parent_lt _ _ hp
  | member _ _ hf | assignMember _ _ hf => exact hfield hf
  | call _ _ hm | binary _ _ _ hm | unary _ _ hm => exact hmethod hm
  | new _ hctor =>
    rintro c ⟨⟩
    rw [hin.classes] at hctor
    obtain ⟨r, hr, _⟩ := Option.bind_eq_some_iff.mp hctor
    exact lt_of_record hr
  | assert _ ih => exact ih
  | cast _ hw =>
    rw [hin.classes] at hw
    exact Registration.resolveType_names hw

theorem first_le (h : WellTyped a) : TypeId.first ≤ a.classes.size := h.size ▸ Nat.le_add_right _ _

theorem inheritable_lt (h : WellTyped a) (hid : a.classes.Inheritable id) : id < a.classes.size :=
  Hierarchy.HierarchyLemmas.inheritable_lt hid h.first_le

theorem parent_inheritable (h : WellTyped a) {p : Nat} (hp : a.classes.parent? id = some p) :
    a.classes.Inheritable p := by
  have hid := lt_of_parent hp
  by_cases hu : id < TypeId.first
  · obtain ⟨r, hr, hany, _⟩ := Hierarchy.HierarchyLemmas.standard_record id hu
    rw [parent_of_record ((h.builtin id hu).trans hr)] at hp
    exact .inl (hany p hp)
  · obtain ⟨i, d, q, r, rfl, _, hc⟩ := h.user_class hid hu
    rw [hc.parent_eq] at hp
    cases hp
    exact hc.inheritable

/-- A class with a constructor has instances of its own. -/
theorem constructor_inheritable (h : WellTyped a) {m : Method}
    (hm : a.classes.constructor? id = some m) : a.classes.Inheritable id := by
  obtain ⟨r, hr, hm⟩ := Option.bind_eq_some_iff.mp hm
  by_cases hu : id < TypeId.first
  · have hall : ∀ i < 6, i ≠ TypeId.any → i ≠ TypeId.console →
        ∀ r ∈ ClassTable.standard.record? i, r.method? .constructor = none := by decide +kernel
    by_cases hany : id = TypeId.any
    · exact .inl hany
    · by_cases hconsole : id = TypeId.console
      · exact .inr (.inl hconsole)
      · have := hall id hu hany hconsole r ((h.builtin id hu).symm.trans hr)
        rw [this] at hm
        cases hm
  · exact .inr (.inr ⟨Nat.le_of_not_lt hu, lt_of_record hr⟩)

/-- A built-in class has no method that its parent has as well, its constructor apart. -/
theorem builtin_apart (hid : id < TypeId.first) {r : ClassRecord} {p : TypeId} {m : Method}
    (hr : ClassTable.standard.record? id = some r) (hp : r.parent = some p)
    (hm : r.method? key = some m) (hkey : key.isInherited) :
    p = TypeId.any ∧ ∀ q, ClassTable.standard.record? TypeId.any = some q → q.method? key = none := by
  obtain ⟨r', hr', hany, _, hroot⟩ := Hierarchy.HierarchyLemmas.standard_record id hid
  rw [hr] at hr'
  cases hr'
  have hne : id ≠ TypeId.any := fun h => by
    rw [hroot h] at hp
    cases hp
  have hall : ∀ id < 6, id ≠ TypeId.any → ∀ r ∈ ClassTable.standard.record? id,
      ∀ q ∈ ClassTable.standard.record? TypeId.any, (r.methods.all fun m => q.methods.all fun n =>
        !(m.key.isInherited && n.key == m.key)) = true := by decide +kernel
  have hapart : ∀ q ∈ ClassTable.standard.record? TypeId.any, ∀ m ∈ r.methods, ∀ n ∈ q.methods,
      m.key.isInherited = false ∨ n.key ≠ m.key := by
    simpa using hall id hid hne r hr
  refine ⟨hany p hp, fun q hq => ?_⟩
  obtain rfl : m.key = key := by simpa using List.find?_some hm
  cases hn : q.method? m.key with
  | none => rfl
  | some n =>
    have hsame : n.key = m.key := by simpa using List.find?_some hn
    rcases hapart q hq m (List.mem_of_find?_eq_some hm) n (List.mem_of_find?_eq_some hn) with h | h
    · rw [h] at hkey
      cases hkey
    · exact absurd hsame h

/-- A class has every method of its ancestors in a form that fits in its place. -/
theorem lookup_conforms (h : WellTyped a) {sub sup owner : Nat} {m : Method}
    (hsub : a.classes.isSubclass sub sup = true) (hkey : key.isInherited)
    (hm : a.classes.lookupMethod? sup key = some (owner, m)) :
    ∃ owner' m', a.classes.lookupMethod? sub key = some (owner', m') ∧ m'.Conforms a.classes m := by
  have ht := h.rooted
  -- A class has its own methods as they are.
  have hself : ∃ owner' m', a.classes.lookupMethod? sup key = some (owner', m') ∧
      m'.Conforms a.classes m := by
    obtain ⟨_, r, hr, hmethod⟩ := lookupMethod_some hm
    have hin : m ∈ r.methods := List.mem_of_find?_eq_some hmethod
    exact ⟨owner, m, hm, .refl ((h.named _ r hr).2 m hin).1 ((h.named _ r hr).2 m hin).2⟩
  by_cases hlt : sub < a.classes.size
  swap
  · exact eq_of_isSubclass_of_le (Nat.le_of_not_lt hlt) hsub ▸ hself
  induction sub, hlt using ht.induct with
  | root id hid hn =>
    rw [isSubclass_root hid hn] at hsub
    exact hsub ▸ hself
  | link id p hid hplt hp ih =>
    rcases (isSubclass_link ht hp).mp hsub with rfl | hsub
    · exact hself
    obtain ⟨owner', inherited, hin, hconf⟩ := ih hsub
    obtain ⟨r, hr⟩ := exists_record hid
    have hparent : r.parent = some p := (parent_of_record hr).symm.trans hp
    cases hown : r.method? key with
    | none => exact ⟨owner', inherited, (lookupMethod_link ht hr hown hparent).trans hin, hconf⟩
    | some own =>
      refine ⟨id, own, lookupMethod_own hr hown, ?_⟩
      by_cases hu : id < TypeId.first
      · rw [h.builtin id hu] at hr
        obtain ⟨rfl, hapart⟩ := builtin_apart hu hr hparent hown hkey
        obtain ⟨q, hq⟩ := exists_record hplt
        have hnone := hapart q ((h.builtin _ (by decide)).symm.trans hq)
        obtain ⟨q', hq', _, _, hroot⟩ :=
          Hierarchy.HierarchyLemmas.standard_record TypeId.any (by decide)
        rw [h.builtin _ (by decide), hq'] at hq
        cases hq
        rw [lookupMethod_root ((h.builtin _ (by decide)).trans hq') hnone (hroot rfl)] at hin
        cases hin
      · obtain ⟨i, d, p', r', rfl, hd, hc⟩ := h.user_class hid hu
        rw [hc.record] at hr
        cases hr
        -- The own method is a declared one, and the check compared it with the inherited one.
        have hsig : own.signature ∈ r.methods.map (·.signature) :=
          List.mem_map_of_mem (List.mem_of_find?_eq_some hown)
        obtain rfl : own.key = key := by simpa using List.find?_some hown
        rw [hc.registered.methods, List.mem_append] at hsig
        rcases hsig with hsig | hsig
        · obtain ⟨mem, hmem, hs⟩ := List.mem_filterMap.mp hsig
          cases mem with
          | field f => cases hs
          | constructor c =>
            rw [← show MemberKey.constructor = own.key from congrArg (·.1) (Option.some.inj hs)] at hkey
            cases hkey
          | method dm =>
            have hdm : dm ∈ d.methods := List.mem_filterMap.mpr ⟨_, hmem, rfl⟩
            have hk : dm.name.key = own.key := congrArg (·.1) (Option.some.inj hs)
            obtain ⟨m', hm', _, hover, _⟩ := hc.methods dm hdm
            rw [hk, hown] at hm'
            cases hm'
            refine (hover owner' inherited ?_).trans ht hconf
            rw [hp, hk]
            exact hin
        · have hctor : own.key = .constructor := by
            split at hsig
            · simpa [Method.signature] using congrArg (·.1) (List.mem_singleton.mp hsig)
            · simp at hsig
          rw [hctor] at hkey
          cases hkey

end WellTyped

end ClassLang
