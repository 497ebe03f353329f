import ClassLang.Proofs.Hierarchy
import ClassLang.Proofs.Success
import ClassLang.Typing.Program

/-!
# Members entered without errors

If all members of the classes can be entered, the record of a class tells its text: the names of its fields
and the keys and numbers of parameters of its methods are those of the declarations, in their order and
each once (`Registered`). A class without a constructor has the implicit one. No other record changes.
-/

namespace ClassLang

/-- Key and number of parameters of a method or constructor. -/
def MemberDecl.signature? {ν : Type} : MemberDecl ν → Option (MemberKey × Nat)
  | .field _ => none
  | .method d => some (d.name.key, d.params.length)
  | .constructor d => some (.constructor, d.params.length)

/-- Key and number of parameters of a method. -/
def Method.signature (m : Method) : MemberKey × Nat := (m.key, m.params.length)

/-- The name of a declared field. -/
def MemberDecl.fieldName? {ν : Type} : MemberDecl ν → Option String
  | .field d => some d.name.name
  | _ => none

/-- The number of parameters that a key demands. -/
def MemberKey.Fits : MemberKey → Nat → Prop
  | .binary _, n => n = 1
  | .unary _, n => n = 0
  | .initializer, _ => False
  | .named _, _ | .constructor, _ => True

/-- A type is about a class of the table, or about none. -/
def ClassTable.Names (t : ClassTable) (τ : Ty) : Prop := ∀ c, τ.class? = some c → c < t.size

/-- The types of all fields, parameters and results are about classes of the table. -/
def ClassTable.TypesNamed (t : ClassTable) : Prop :=
  ∀ (id : Nat) r, t.record? id = some r → (∀ f ∈ r.fields, t.Names f.type) ∧
    ∀ m ∈ r.methods, (∀ τ ∈ m.params, t.Names τ) ∧ t.Names m.returns

namespace Registration

open Hierarchy.HierarchyLemmas

/-- `Enters t t' id names signatures`: `t'` is `t` with fields and methods of these names and
signatures added to the class `id`, without a clash. -/
structure Enters (t t' : ClassTable) (id : Nat) (names : List String)
    (signatures : List (MemberKey × Nat)) : Prop where
  size : t'.size = t.size
  find : ∀ name, t'.find? name = t.find? name
  other : ∀ j, j ≠ id → t'.record? j = t.record? j
  own : ∀ r, t.record? id = some r → (r.fields.map (·.name)).Nodup → (r.methods.map (·.key)).Nodup →
    ∃ fields methods, t'.record? id = some { r with fields := fields, methods := methods } ∧
      fields.map (·.name) = r.fields.map (·.name) ++ names ∧
      methods.map (·.signature) = r.methods.map (·.signature) ++ signatures ∧
      (fields.map (·.name)).Nodup ∧ (methods.map (·.key)).Nodup

namespace Enters

variable {t t' t'' : ClassTable} {id : Nat} {ns ns' : List String}
  {ss ss' : List (MemberKey × Nat)}

theorem refl : Enters t t id [] [] :=
  ⟨rfl, fun _ => rfl, fun _ _ => rfl, fun r hr hf hm => ⟨r.fields, r.methods, by simpa using hr,
    by simp, by simp, hf, hm⟩⟩

theorem trans (h : Enters t t' id ns ss) (h' : Enters t' t'' id ns' ss') :
    Enters t t'' id (ns ++ ns') (ss ++ ss') where
  size := h'.size.trans h.size
  find name := (h'.find name).trans (h.find name)
  other j hj := (h'.other j hj).trans (h.other j hj)
  own r hr hf hm := by
    obtain ⟨fs, ms, hr', hfs, hms, hfs', hms'⟩ := h.own r hr hf hm
    obtain ⟨fs₂, ms₂, hr'', hfs₂, hms₂, hfs₂', hms₂'⟩ := h'.own _ hr' hfs' hms'
    refine ⟨fs₂, ms₂, hr'', ?_, ?_, hfs₂', hms₂'⟩
    · rw [hfs₂]
      simp only [hfs, List.append_assoc]
    · rw [hms₂]
      simp only [hms, List.append_assoc]

end Enters

theorem addField_enters {t t' : ClassTable} {id : Nat} {name : Ident} {access : Access} {type : Ty}
    (h : t.addField id name access type = .ok t') : Enters t t' id [name.name] [] := by
  unfold ClassTable.addField at h
  split at h
  · cases h
  · next hfree =>
    simp only [Except.ok.injEq] at h
    subst h
    refine ⟨size_modify _ _ _, find_modify _ _ _ fun _ => rfl, fun j hj => ?_, fun r hr hf hm => ?_⟩
    · rw [record_modify, if_neg (Ne.symm hj)]
    · refine ⟨_, r.methods, by rw [record_modify, if_pos rfl, hr]; rfl, by simp, by simp, ?_, hm⟩
      have hnot : name.name ∉ r.fields.map (·.name) := by
        simpa [hr, ClassRecord.field?] using hfree
      rw [List.map_append]
      exact List.nodup_append.mpr ⟨hf, by simp, by
        intro a ha b hb hab
        simp only [List.map_cons, List.map_nil, List.mem_singleton] at hb
        exact hnot (hb ▸ hab ▸ ha)⟩

theorem addMethod_enters {t t' : ClassTable} {id : Nat} {m : Method}
    (h : t.addMethod id m = .ok t') : Enters t t' id [] [m.signature] := by
  unfold ClassTable.addMethod at h
  split at h
  · cases h
  · next hfree =>
    simp only [Except.ok.injEq] at h
    subst h
    refine ⟨size_modify _ _ _, find_modify _ _ _ fun _ => rfl, fun j hj => ?_, fun r hr hf hm => ?_⟩
    · rw [record_modify, if_neg (Ne.symm hj)]
    · refine ⟨r.fields, _, by rw [record_modify, if_pos rfl, hr]; rfl, by simp, by simp, hf, ?_⟩
      have hnot : m.key ∉ r.methods.map (·.key) := by
        simpa [hr, ClassRecord.method?] using hfree
      rw [List.map_append]
      exact List.nodup_append.mpr ⟨hm, by simp, by
        intro a ha b hb hab
        simp only [List.map_cons, List.map_nil, List.mem_singleton] at hb
        exact hnot (hb ▸ hab ▸ ha)⟩

theorem paramTypes_length {t : ClassTable} {params : List Param} {types : List Ty}
    (h : paramTypes t params = .ok types) : types.length = params.length := by
  unfold paramTypes at h
  induction params generalizing types with
  | nil => cases h; rfl
  | cons p ps ih =>
    simp only [List.mapM_cons, bind_eq_ok, pure_eq_ok] at h
    obtain ⟨type, _, types', htypes, rfl⟩ := h
    simp [ih htypes]

/-- The entry of a method has the key and the parameters of its declaration, and an operator has as many
as it needs. -/
theorem methodOf_ok {t : ClassTable} {d : MethodDecl Span} {m : Method}
    (h : methodOf t d = .ok m) :
    m.signature = (d.name.key, d.params.length) ∧ d.name.key.Fits d.params.length := by
  -- What remains of the definition once the arity is right.
  have hentry : ∀ m, (do
      let params ← paramTypes t d.params
      let returns ← returnType t d.returns
      return (⟨d.name.key, d.access, params, returns, d.isOverride, d.name.span⟩ : Method)) =
        (.ok m : Except SemanticError Method) →
      m.signature = (d.name.key, d.params.length) := by
    intro m hm
    simp only [bind_eq_ok, pure_eq_ok] at hm
    obtain ⟨params, hparams, returns, _, rfl⟩ := hm
    simp [Method.signature, paramTypes_length hparams]
  unfold methodOf at h
  cases hname : d.name with
  | named x =>
    simp only [hname, requiredParams?] at h hentry
    exact ⟨hentry m h, trivial⟩
  | binary op span | unary op span =>
    simp only [hname, requiredParams?] at h hentry
    split at h
    · cases h
    · next hlen =>
      simp only [ne_eq, Decidable.not_not] at hlen
      exact ⟨hentry m h, hlen⟩

/-! ## Types -/

/-- A resolved type is about a class of the table. -/
theorem resolveType_names {t : ClassTable} {w : TypeName} {τ : Ty} (h : t.resolveType w = .ok τ) :
    t.Names τ := by
  have hfind : ∀ x id, t.resolve x = .ok id → id < t.size := by
    intro x id hid
    unfold ClassTable.resolve at hid
    split at hid
    · next found =>
      cases hid
      exact (List.findIdx?_eq_some_iff_findIdx_eq.mp found).1
    · cases hid
  intro c hc
  cases w with
  | null s => cases h; cases hc
  | named x | optional x s =>
    simp only [ClassTable.resolveType, bind_eq_ok, pure_eq_ok] at h
    obtain ⟨id, hid, rfl⟩ := h
    cases hc
    exact hfind _ _ hid

theorem paramTypes_names {t : ClassTable} {params : List Param} {types : List Ty}
    (h : paramTypes t params = .ok types) : ∀ τ ∈ types, t.Names τ := by
  unfold paramTypes at h
  induction params generalizing types with
  | nil => cases h; simp
  | cons p ps ih =>
    simp only [List.mapM_cons, bind_eq_ok, pure_eq_ok] at h
    obtain ⟨type, htype, types', htypes, rfl⟩ := h
    exact List.forall_mem_cons.mpr ⟨resolveType_names htype, ih htypes⟩

theorem addField_typesNamed {t t' : ClassTable} {id : Nat} {name : Ident} {access : Access} {type : Ty}
    (ht : t.TypesNamed) (hτ : t.Names type) (h : t.addField id name access type = .ok t') :
    t'.TypesNamed := by
  unfold ClassTable.addField at h
  split at h
  · cases h
  · cases h
    intro j r hr
    simp only [ClassTable.Names, size_modify]
    rw [record_modify] at hr
    split at hr
    · obtain ⟨q, hq, rfl⟩ := Option.map_eq_some_iff.mp hr
      refine ⟨fun f hf => ?_, (ht j q hq).2⟩
      rcases List.mem_append.mp hf with hf | hf
      · exact (ht j q hq).1 f hf
      · rw [List.mem_singleton.mp hf]
        exact hτ
    · exact ht j r hr

theorem addMethod_typesNamed {t t' : ClassTable} {id : Nat} {m : Method} (ht : t.TypesNamed)
    (hp : ∀ τ ∈ m.params, t.Names τ) (hm : t.Names m.returns) (h : t.addMethod id m = .ok t') :
    t'.TypesNamed := by
  unfold ClassTable.addMethod at h
  split at h
  · cases h
  · cases h
    intro j r hr
    simp only [ClassTable.Names, size_modify]
    rw [record_modify] at hr
    split at hr
    · obtain ⟨q, hq, rfl⟩ := Option.map_eq_some_iff.mp hr
      refine ⟨(ht j q hq).1, fun m' hm' => ?_⟩
      rcases List.mem_append.mp hm' with hm' | hm'
      · exact (ht j q hq).2 m' hm'
      · rw [List.mem_singleton.mp hm']
        exact ⟨hp, hm⟩
    · exact ht j r hr

theorem unit_names {t : ClassTable} (hsize : TypeId.first ≤ t.size) : t.Names .unit := by
  rintro c ⟨⟩
  exact hsize

theorem methodOf_names {t : ClassTable} {d : MethodDecl Span} {m : Method}
    (hsize : TypeId.first ≤ t.size) (h : methodOf t d = .ok m) :
    (∀ τ ∈ m.params, t.Names τ) ∧ t.Names m.returns := by
  have hentry : ∀ m, (do
      let params ← paramTypes t d.params
      let returns ← returnType t d.returns
      return (⟨d.name.key, d.access, params, returns, d.isOverride, d.name.span⟩ : Method)) =
        (.ok m : Except SemanticError Method) →
      (∀ τ ∈ m.params, t.Names τ) ∧ t.Names m.returns := by
    intro m hm
    simp only [bind_eq_ok, pure_eq_ok] at hm
    obtain ⟨params, hparams, returns, hreturns, rfl⟩ := hm
    refine ⟨paramTypes_names hparams, ?_⟩
    unfold returnType at hreturns
    split at hreturns
    · exact resolveType_names hreturns
    · cases hreturns
      exact unit_names hsize
  unfold methodOf at h
  cases hname : d.name with
  | named x =>
    simp only [hname, requiredParams?] at h hentry
    exact hentry m h
  | binary op span | unary op span =>
    simp only [hname, requiredParams?] at h hentry
    split at h
    · cases h
    · exact hentry m h

/-! ## Members -/

theorem member_typesNamed {t t' : ClassTable} {id : Nat} {m : MemberDecl Span}
    (hsize : TypeId.first ≤ t.size) (ht : t.TypesNamed) (h : member t id m = .ok t') :
    t'.TypesNamed := by
  cases m with
  | field d =>
    simp only [member, bind_eq_ok] at h
    obtain ⟨type, htype, h⟩ := h
    exact addField_typesNamed ht (resolveType_names htype) h
  | method d =>
    simp only [member, bind_eq_ok] at h
    obtain ⟨m, hm, h⟩ := h
    exact addMethod_typesNamed ht (methodOf_names hsize hm).1 (methodOf_names hsize hm).2 h
  | constructor d =>
    simp only [member, bind_eq_ok] at h
    obtain ⟨params, hparams, h⟩ := h
    exact addMethod_typesNamed ht (paramTypes_names hparams) (unit_names hsize) h

theorem member_enters {t t' : ClassTable} {id : Nat} {m : MemberDecl Span}
    (h : member t id m = .ok t') :
    Enters t t' id m.fieldName?.toList m.signature?.toList ∧
      ∀ s ∈ m.signature?, s.1.Fits s.2 := by
  cases m with
  | field d =>
    simp only [member, bind_eq_ok] at h
    obtain ⟨type, _, h⟩ := h
    exact ⟨addField_enters h, by simp [MemberDecl.signature?]⟩
  | method d =>
    simp only [member, bind_eq_ok] at h
    obtain ⟨m, hm, h⟩ := h
    obtain ⟨hsig, hfits⟩ := methodOf_ok hm
    have henters := addMethod_enters h
    rw [hsig] at henters
    exact ⟨henters, by simpa [MemberDecl.signature?] using hfits⟩
  | constructor d =>
    simp only [member, bind_eq_ok] at h
    obtain ⟨params, hparams, h⟩ := h
    have henters := addMethod_enters h
    rw [Method.signature, paramTypes_length hparams] at henters
    exact ⟨henters, by simp [MemberDecl.signature?, MemberKey.Fits]⟩

theorem memberList_ok {t : ClassTable} {id : Nat} {ms : List (MemberDecl Span)}
    (h : (memberList t id ms).errors = []) :
    (memberList t id ms).members = ms.map (·, true) ∧
    Enters t (memberList t id ms).table id (ms.filterMap (·.fieldName?))
      (ms.filterMap (·.signature?)) ∧
    ∀ m ∈ ms, ∀ s ∈ m.signature?, s.1.Fits s.2 := by
  induction ms generalizing t with
  | nil => exact ⟨rfl, .refl, by simp⟩
  | cons m ms ih =>
    cases hm : member t id m with
    | error e => simp [memberList, hm] at h
    | ok t' =>
      simp only [memberList, hm] at h ⊢
      obtain ⟨hmembers, hrest, hfits⟩ := ih h
      obtain ⟨hfirst, hfit⟩ := member_enters hm
      refine ⟨by rw [hmembers]; rfl, ?_, List.forall_mem_cons.mpr ⟨hfit, hfits⟩⟩
      have htrans := hfirst.trans hrest
      rw [List.filterMap_cons, List.filterMap_cons]
      cases m <;> exact htrans

theorem memberList_typesNamed {t : ClassTable} {id : Nat} {ms : List (MemberDecl Span)}
    (hsize : TypeId.first ≤ t.size) (ht : t.TypesNamed) (h : (memberList t id ms).errors = []) :
    (memberList t id ms).table.TypesNamed := by
  induction ms generalizing t with
  | nil => exact ht
  | cons m ms ih =>
    cases hm : member t id m with
    | error e => simp [memberList, hm] at h
    | ok t' =>
      simp only [memberList, hm] at h ⊢
      exact ih ((member_enters hm).1.size.symm ▸ hsize) (member_typesNamed hsize ht hm) h

end Registration

/-- The record of a class tells its declarations: the names of its fields, and the keys and numbers of
parameters of its methods, among them exactly one constructor. -/
structure Registered {ν : Type} (d : ClassDecl ν) (r : ClassRecord) : Prop where
  fields : r.fields.map (·.name) = d.members.filterMap (·.fieldName?)
  fieldsNodup : (r.fields.map (·.name)).Nodup
  methods : r.methods.map (·.signature) = d.members.filterMap (·.signature?) ++
    if d.constructors.isEmpty then [(.constructor, 0)] else []
  methodsNodup : (r.methods.map (·.key)).Nodup
  fits : ∀ m ∈ d.members, ∀ s ∈ m.signature?, s.1.Fits s.2

namespace Registration

/-- The members of a class without fields and methods are entered without errors. -/
theorem classDecl_ok {t : ClassTable} {id : Nat} {d : ClassDecl Span}
    (h : (classDecl t id d).2.2 = []) :
    (classDecl t id d).1 = ⟨id, d, d.members.map (·, true), d.constructors.isEmpty⟩ ∧
    (classDecl t id d).2.1.size = t.size ∧
    (∀ name, (classDecl t id d).2.1.find? name = t.find? name) ∧
    (∀ j, j ≠ id → (classDecl t id d).2.1.record? j = t.record? j) ∧
    ∀ r, t.record? id = some r → r.fields = [] → r.methods = [] → ∃ fields methods,
      (classDecl t id d).2.1.record? id = some { r with fields := fields, methods := methods } ∧
      Registered d { r with fields := fields, methods := methods } := by
  have key : ∃ t', (classDecl t id d) =
      (⟨id, d, d.members.map (·, true), d.constructors.isEmpty⟩, t', []) ∧
      Enters t t' id (d.members.filterMap (·.fieldName?)) (d.members.filterMap (·.signature?) ++
        if d.constructors.isEmpty then [(.constructor, 0)] else []) ∧
      ∀ m ∈ d.members, ∀ s ∈ m.signature?, s.1.Fits s.2 := by
    cases hempty : d.constructors.isEmpty with
    | true =>
      cases hadd : (memberList t id d.members).table.addMethod id (implicitConstructor d) with
      | error e => simp [classDecl, hempty, hadd] at h
      | ok t' =>
        simp only [classDecl, hempty, hadd, ↓reduceIte] at h ⊢
        obtain ⟨hmembers, henters, hfits⟩ := memberList_ok h
        refine ⟨t', by rw [hmembers, h], ?_, hfits⟩
        simpa [Method.signature, implicitConstructor] using henters.trans (addMethod_enters hadd)
    | false =>
      simp only [classDecl, hempty, Bool.false_eq_true, ↓reduceIte] at h ⊢
      obtain ⟨hmembers, henters, hfits⟩ := memberList_ok h
      exact ⟨_, by rw [hmembers, h], by simpa using henters, hfits⟩
  obtain ⟨t', hclass, henters, hfits⟩ := key
  rw [hclass]
  refine ⟨rfl, henters.size, henters.find, henters.other, fun r hr hf hm => ?_⟩
  obtain ⟨fs, ms, hr', hfs, hms, hfs', hms'⟩ := henters.own r hr (by simp [hf]) (by simp [hm])
  exact ⟨fs, ms, hr', by simpa [hf] using hfs, hfs', by simpa [hm] using hms, hms', hfits⟩

theorem classDecl_typesNamed {t : ClassTable} {id : Nat} {d : ClassDecl Span}
    (hsize : TypeId.first ≤ t.size) (ht : t.TypesNamed) (h : (classDecl t id d).2.2 = []) :
    (classDecl t id d).2.1.TypesNamed := by
  cases hempty : d.constructors.isEmpty with
  | true =>
    cases hadd : (memberList t id d.members).table.addMethod id (implicitConstructor d) with
    | error e => simp [classDecl, hempty, hadd] at h
    | ok t' =>
      simp only [classDecl, hempty, hadd, ↓reduceIte] at h ⊢
      have hsize' : TypeId.first ≤ (memberList t id d.members).table.size :=
        (memberList_ok h).2.1.size.symm ▸ hsize
      exact addMethod_typesNamed (memberList_typesNamed hsize ht h)
        (by simp [implicitConstructor]) (unit_names hsize') hadd
  | false =>
    simp only [classDecl, hempty, Bool.false_eq_true, ↓reduceIte] at h ⊢
    exact memberList_typesNamed hsize ht h

theorem classList_typesNamed {t : ClassTable} {cs : List (TypeId × ClassDecl Span)}
    (hsize : TypeId.first ≤ t.size) (ht : t.TypesNamed) (h : (classList t cs).2.2 = []) :
    (classList t cs).2.1.TypesNamed := by
  induction cs generalizing t with
  | nil => exact ht
  | cons c cs ih =>
    obtain ⟨id, d⟩ := c
    simp only [classList, List.append_eq_nil_iff] at h ⊢
    exact ih ((classDecl_ok h.1).2.1.symm ▸ hsize) (classDecl_typesNamed hsize ht h.1) h.2

theorem classList_ok {t : ClassTable} {cs : List (TypeId × ClassDecl Span)}
    (h : (classList t cs).2.2 = []) (hnd : (cs.map (·.1)).Nodup)
    (hblank : ∀ c ∈ cs, ∃ r, t.record? c.1 = some r ∧ r.fields = [] ∧ r.methods = []) :
    (classList t cs).1 =
      cs.map (fun c => ⟨c.1, c.2, c.2.members.map (·, true), c.2.constructors.isEmpty⟩) ∧
    (classList t cs).2.1.size = t.size ∧
    (∀ j, j ∉ cs.map (·.1) → (classList t cs).2.1.record? j = t.record? j) ∧
    ∀ c ∈ cs, ∀ r, t.record? c.1 = some r → ∃ fields methods,
      (classList t cs).2.1.record? c.1 = some { r with fields := fields, methods := methods } ∧
      Registered c.2 { r with fields := fields, methods := methods } := by
  induction cs generalizing t with
  | nil => simp [classList]
  | cons c cs ih =>
    obtain ⟨id, d⟩ := c
    simp only [classList, List.append_eq_nil_iff] at h ⊢
    simp only [List.map_cons, List.nodup_cons] at hnd
    obtain ⟨hentered, hsize, _, hother, hown⟩ := classDecl_ok h.1
    obtain ⟨⟨r, hr, hf, hm⟩, hblank⟩ := List.forall_mem_cons.mp hblank
    have hne : ∀ c ∈ cs, c.1 ≠ id := fun c hc heq => hnd.1 (heq ▸ List.mem_map_of_mem hc)
    obtain ⟨hrest, hsize', hother', heach⟩ := ih h.2 hnd.2 fun c hc => by
      rw [hother c.1 (hne c hc)]
      exact hblank c hc
    refine ⟨by rw [hentered, hrest]; rfl, hsize'.trans hsize, fun j hj => ?_, fun c hc r' hr' => ?_⟩
    · simp only [List.map_cons, List.mem_cons, not_or] at hj
      rw [hother' j hj.2, hother j hj.1]
    · rcases List.mem_cons.mp hc with rfl | hc
      · rw [hr] at hr'
        cases hr'
        rw [hother' _ hnd.1]
        exact hown r hr hf hm
      · exact heach c hc r' (by rwa [hother c.1 (hne c hc)])

end Registration

end ClassLang
