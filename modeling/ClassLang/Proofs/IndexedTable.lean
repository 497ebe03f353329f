import ClassLang.Classes.IndexedTable
import ClassLang.Proofs.TableEdits

/-!
# Lookups of the class table

In `IndexedTable` the records, the index of their names, and in each record the map of the fields and their
order are different data, and a step of `ClassTable.Edit` changes one after the other. That they agree is not a
matter of their types: a step that fails after its first change, or that enters a name and not the class, would
leave them apart.

Two things are shown. A step is refused for a reason that can be read off the table, and only for one, and what
it leaves then is the very table it was given (`edit_cases`); this is about the steps alone. And every step of
an indexed table is one of the class table (`edit_inStep`), which searches its records and has no second copy of
anything. `IndexedTable.edits_keep_shape` puts these together for all sequences of steps.
-/

namespace ClassLang

/-- What is kept of a field under its name. -/
def Field.info (f : Field) : FieldInfo := ⟨f.access, f.type, f.offset, f.span⟩

/-- What is kept of a method under its key. -/
def Method.info (m : Method) : MethodInfo := ⟨m.access, m.params, m.returns, m.isOverride, m.span⟩

/-- A record says of a class what the class table says. Its order lists the fields as they stand there, and its
maps find the fields and methods that a search finds. -/
structure IndexedRecord.InStep (r : IndexedRecord) (c : ClassRecord) : Prop where
  name : r.name = c.name
  parent : r.parent = c.parent
  isBuiltin : r.isBuiltin = c.isBuiltin
  isSealed : r.isSealed = c.isSealed
  span : r.span = c.span
  fieldCount : r.fieldCount = c.fieldCount
  order : r.fieldOrder = c.fields.map (·.name)
  once : r.fieldOrder.Nodup
  fields : ∀ x, r.fields[x]? = (c.field? x).map Field.info
  methods : ∀ key, r.methods[key]? = (c.method? key).map Method.info

/-- The index finds the class that a search for its name finds, and at each index stands the same class. -/
structure IndexedTable.InStep (s : IndexedTable) (t : ClassTable) : Prop where
  size : s.size = t.size
  names : ∀ x, s.byName[x]? = t.find? x
  records : ∀ id r c, s.record? id = some r → t.record? id = some c → r.id = id ∧ r.InStep c

/-- The classes that a written type mentions. -/
def TypeName.mentions : TypeName → List Ident
  | .named name | .optional name _ => [name]
  | .null _ => []

/-- The classes that a step mentions. -/
def ClassTable.Edit.mentions : ClassTable.Edit → List Ident
  | .declare _ | .layout => []
  | .setParent type parent => parent.toList ++ [type]
  | .addField type _ _ written => written.mentions ++ [type]
  | .addMethod type _ _ params returns _ _ => params.flatMap (·.mentions) ++ (returns.mentions ++ [type])

namespace IndexedTable

open ClassTable (Edit registered animalEdits)

/-! ## Steps -/

/-- Takes a step. Written types are resolved before the class. -/
def attempt : Edit → Update Unit
  | .declare name => do
    let _ ← declare name
    return ()
  | .setParent type none => do
    setParent (← resolve type) none
  | .setParent type (some parent) => do
    let parent ← resolve parent
    setParent (← resolve type) (some parent)
  | .addField type name access written => do
    let τ ← resolveType written
    addField (← resolve type) name access τ
  | .addMethod type key access params returns isOverride span => do
    let params ← params.mapM resolveType
    let returns ← resolveType returns
    addMethod (← resolve type) key ⟨access, params, returns, isOverride, span⟩
  | .layout => modify layout

/-- What a step leaves of a table, be it refused or not, and why it was refused, if it was. -/
def edit (s : IndexedTable) (e : Edit) : IndexedTable × Option SemanticError :=
  match (attempt e).run s with
  | .ok _ s' => (s', none)
  | .error refusal s' => (s', some refusal)

/-- Takes steps in turn, with the answer to each of them. -/
def edits (s : IndexedTable) (es : List Edit) : IndexedTable × List (Option SemanticError) := Edit.run edit s es

/-! ## Reasons to refuse a step -/

/-- One of some names is that of no class. -/
def Unknown (s : IndexedTable) (names : List Ident) (refusal : SemanticError) : Prop :=
  ∃ x ∈ names, x.name ∉ s.byName ∧ refusal = ⟨.unknownType x.name, x.span⟩

/-- What a step declares is there already. -/
def Clashes (s : IndexedTable) : Edit → SemanticError → Prop
  | .declare name, refusal =>
    name.name ∈ s.byName ∧ refusal = ⟨.duplicateDeclaration name.name, name.span⟩
  | .addField type name _ _, refusal =>
    (∃ id, s.byName[type.name]? = some id ∧ s.hasField id name.name) ∧
      refusal = ⟨.duplicateDeclaration name.name, name.span⟩
  | .addMethod type key _ _ _ _ span, refusal =>
    (∃ id, s.byName[type.name]? = some id ∧ s.hasMethod id key) ∧
      refusal = ⟨.duplicateDeclaration key.text, span⟩
  | .setParent .., _ | .layout, _ => False

/-- There is a reason to refuse a step. -/
def Refuses (s : IndexedTable) (e : Edit) (refusal : SemanticError) : Prop :=
  s.Unknown e.mentions refusal ∨ s.Clashes e refusal

/-! ## The shape of a table -/

/-- The names of the own fields of a class, in their order. -/
def fieldNames (s : IndexedTable) (className : String) : List String :=
  (((s.byName[className]?).bind s.record?).map (·.fieldOrder)).getD []

/-- What is found in a table is found in another one, fields up to their slots. -/
structure Persists (s s' : IndexedTable) : Prop where
  classes : ∀ (name : String) (id : TypeId), s.byName[name]? = some id → s'.byName[name]? = some id
  fields : ∀ id (x : String) f, ((s.record? id).bind fun r => r.fields[x]?) = some f →
    ∃ offset, ((s'.record? id).bind fun r => r.fields[x]?) = some { f with offset }
  methods : ∀ id (key : MemberKey) m, ((s.record? id).bind fun r => r.methods[key]?) = some m →
    ((s'.record? id).bind fun r => r.methods[key]?) = some m

/-- The shape of a table that steps have made of the built-in classes. The index leads from the name of each
class to its index and from no other name, and parents are classes of the table. The order of a class lists the
names in its map of fields, each once: those of the built-in class, and then those that were added, in the order
of the steps. -/
structure Shape (s : IndexedTable) (steps : List (Edit × Option SemanticError)) : Prop where
  ids : ∀ id r, s.record? id = some r → r.id = id
  names : ∀ (name : String) (id : TypeId), s.byName[name]? = some id ↔ ∃ r, s.record? id = some r ∧ r.name = name
  parents : ∀ id p, s.parent? id = some p → p < s.size
  listed : ∀ id r, s.record? id = some r → ∀ x, x ∈ r.fieldOrder ↔ x ∈ r.fields
  once : ∀ id r, s.record? id = some r → r.fieldOrder.Nodup
  order : ∀ id r, s.record? id = some r →
    r.fieldOrder = standard.fieldNames r.name ++ registered r.name steps

namespace StepLemmas

variable {α β : Type} {s : IndexedTable} {x : Update α} {f : α → Update β} {y : Except SemanticError α}
  {R S : SemanticError → Prop} {id : TypeId}

/-! ## Single steps -/

theorem run_throw (e : SemanticError) : (throw e : Update α).run s = .error e s := rfl

theorem attempt_declare_run (s : IndexedTable) (name : Ident) : (attempt (.declare name)).run s =
    if name.name ∈ s.byName then .error ⟨.duplicateDeclaration name.name, name.span⟩ s
    else .ok () ((s.pushType (.empty s.size name.name name.span)).enterName name.name s.size) := by
  unfold attempt declare
  by_cases h : name.name ∈ s.byName
  · simp [h]
  · simp [h]

theorem resolve_run (s : IndexedTable) (name : Ident) : (resolve name).run s = match s.byName[name.name]? with
    | some id => .ok id s
    | none => .error ⟨.unknownType name.name, name.span⟩ s := by
  unfold resolve
  cases h : s.byName[name.name]? <;> simp [h, run_throw]

theorem addField_run (s : IndexedTable) (id : TypeId) (name : Ident) (access : Access) (τ : Ty) :
    (addField id name access τ).run s =
    if s.hasField id name.name then .error ⟨.duplicateDeclaration name.name, name.span⟩ s
    else .ok () ((s.update id (·.pushName name.name)).update id
      (·.enterField name.name ⟨access, τ, 0, name.span⟩)) := by
  unfold addField
  cases h : s.hasField id name.name
  · simp [h]
  · simp [h]

theorem addMethod_run (s : IndexedTable) (id : TypeId) (key : MemberKey) (m : MethodInfo) : (addMethod id key m).run s =
    if s.hasMethod id key then .error ⟨.duplicateDeclaration key.text, m.span⟩ s
    else .ok () (s.update id (·.enterMethod key m)) := by
  unfold addMethod
  cases h : s.hasMethod id key
  · simp [h]
  · simp [h]

/-! ## Refusals -/

/-- A computation fails for one of the given reasons, and only if there is one, and has changed nothing then. If
it does not fail, its result and what it leaves are as told. -/
def FailsBy (s : IndexedTable) (x : Update α) (reason : SemanticError → Prop)
    (result : α → IndexedTable → Prop) : Prop :=
  match x.run s with
  | .ok a s' => (∀ e, ¬ reason e) ∧ result a s'
  | .error e s' => reason e ∧ s' = s

namespace FailsBy

variable {P : α → IndexedTable → Prop} {Q : β → IndexedTable → Prop}

theorem of_ok {a : α} {s' : IndexedTable} (hx : x.run s = .ok a s') (hR : ∀ e, ¬ R e) (hP : P a s') :
    FailsBy s x R P := by
  rw [FailsBy, hx]
  exact ⟨hR, hP⟩

theorem of_error {e : SemanticError} (hx : x.run s = .error e s) (hR : R e) : FailsBy s x R P := by
  rw [FailsBy, hx]
  exact ⟨hR, rfl⟩

theorem congr (h : FailsBy s x R P) (hRS : ∀ e, R e ↔ S e) : FailsBy s x S P := by
  rwa [← funext fun e => propext (hRS e)]

theorem weaken {P' : α → IndexedTable → Prop} (h : FailsBy s x R P) (hP : ∀ a s', P a s' → P' a s') :
    FailsBy s x R P' := by
  unfold FailsBy at h ⊢
  split at h
  · exact ⟨h.1, hP _ _ h.2⟩
  · exact h

/-- A lookup in front of a computation adds its reasons. -/
theorem bind {found : α → Prop} (hx : FailsBy s x R fun a s' => s' = s ∧ found a)
    (hf : ∀ a, found a → FailsBy s (f a) S Q) : FailsBy s (x >>= f) (fun e => R e ∨ S e) Q := by
  unfold FailsBy at hx ⊢
  rw [EStateM.run_bind]
  cases hrun : x.run s with
  | error e s' =>
    rw [hrun] at hx
    exact ⟨.inl hx.1, hx.2⟩
  | ok a s' =>
    rw [hrun] at hx
    obtain ⟨hno, rfl, ha⟩ := hx
    have hfa := hf a ha
    unfold FailsBy at hfa
    dsimp only
    cases hrest : (f a).run s' with
    | error e s'' =>
      rw [hrest] at hfa
      exact ⟨.inr hfa.1, hfa.2⟩
    | ok b s'' =>
      rw [hrest] at hfa
      exact ⟨fun e he => he.elim (hno e) (hfa.1 e), hfa.2⟩

end FailsBy

theorem pure_fails (a : α) : FailsBy s (pure a) (fun _ => False) fun b s' => s' = s ∧ b = a :=
  .of_ok rfl (fun _ h => h) ⟨rfl, rfl⟩

theorem unknown_append {xs ys : List Ident} {refusal : SemanticError} :
    s.Unknown (xs ++ ys) refusal ↔ s.Unknown xs refusal ∨ s.Unknown ys refusal := by
  simp only [Unknown, List.mem_append, or_and_right, exists_or]

theorem resolve_fails (name : Ident) : FailsBy s (resolve name) (s.Unknown [name]) fun id s' =>
    s' = s ∧ s.byName[name.name]? = some id := by
  have hrun := resolve_run s name
  cases h : s.byName[name.name]? with
  | some id =>
    rw [h] at hrun
    have hmem : name.name ∈ s.byName := by simp [Std.HashMap.mem_iff_isSome_getElem?, h]
    exact .of_ok hrun (by simp [Unknown, hmem]) ⟨rfl, rfl⟩
  | none =>
    rw [h] at hrun
    have hnot : name.name ∉ s.byName := by simp [Std.HashMap.mem_iff_isSome_getElem?, h]
    exact .of_error hrun ⟨name, List.mem_singleton_self name, hnot, rfl⟩

theorem resolveType_fails (written : TypeName) :
    FailsBy s (resolveType written) (s.Unknown written.mentions) fun _ s' => s' = s ∧ True := by
  cases written with
  | named name | optional name span =>
    refine ((resolve_fails name).bind fun id _ => (pure_fails _).weaken fun _ _ h => ⟨h.1, trivial⟩).congr fun e => ?_
    rw [or_false, TypeName.mentions]
  | null span => exact .of_ok rfl (by simp [Unknown, TypeName.mentions]) ⟨rfl, trivial⟩

theorem resolveTypes_fails (written : List TypeName) : FailsBy s (written.mapM resolveType)
    (s.Unknown (written.flatMap (·.mentions))) fun _ s' => s' = s ∧ True := by
  induction written with
  | nil => exact .of_ok rfl (by simp [Unknown]) ⟨rfl, trivial⟩
  | cons w ws ih =>
    rw [List.mapM_cons, List.flatMap_cons]
    refine ((resolveType_fails w).bind fun _ _ => ih.bind fun _ _ =>
      (pure_fails _).weaken fun _ _ h => ⟨h.1, trivial⟩).congr fun e => ?_
    rw [unknown_append, or_false]

/-- A step is refused for a reason, and only if there is one, and leaves the table as it was then. -/
theorem attempt_fails (s : IndexedTable) (e : Edit) : FailsBy s (attempt e) (s.Refuses e) fun _ _ => True := by
  cases e with
  | declare name =>
    have hrun := attempt_declare_run s name
    split at hrun
    · next h => exact .of_error hrun (.inr ⟨h, rfl⟩)
    · next h => exact .of_ok hrun (by simp [Refuses, Unknown, Clashes, Edit.mentions, h]) trivial
  | setParent type parent =>
    have hset (id : TypeId) (p : Option TypeId) : FailsBy s (setParent id p) (fun _ => False) fun _ _ => True :=
      .of_ok rfl (fun _ h => h) trivial
    cases parent with
    | none =>
      refine ((resolve_fails type).bind fun id _ => hset id none).congr fun e => ?_
      rw [Refuses, Clashes, Edit.mentions, Option.toList_none, List.nil_append]
    | some parent =>
      refine ((resolve_fails parent).bind fun p _ => (resolve_fails type).bind fun id _ =>
        hset id (some p)).congr fun e => ?_
      simp only [Refuses, Clashes, Edit.mentions, Option.toList_some, unknown_append, or_false]
  | addField type name access written =>
    have hadd (τ : Ty) (id : TypeId) (hid : s.byName[type.name]? = some id) :
        FailsBy s (addField id name access τ) (s.Clashes (.addField type name access written))
          fun _ _ => True := by
      have hrun := addField_run s id name access τ
      split at hrun
      · next h => exact .of_error hrun ⟨⟨id, hid, h⟩, rfl⟩
      · next h => exact .of_ok hrun (by simp [Clashes, hid, h]) trivial
    refine ((resolveType_fails written).bind fun τ _ => (resolve_fails type).bind (hadd τ)).congr fun e => ?_
    rw [Refuses, Edit.mentions, unknown_append, or_assoc]
  | addMethod type key access params returns isOverride span =>
    have hadd (params' : List Ty) (returns' : Ty) (id : TypeId) (hid : s.byName[type.name]? = some id) :
        FailsBy s (addMethod id key ⟨access, params', returns', isOverride, span⟩)
          (s.Clashes (.addMethod type key access params returns isOverride span)) fun _ _ => True := by
      have hrun := addMethod_run s id key ⟨access, params', returns', isOverride, span⟩
      split at hrun
      · next h => exact .of_error hrun ⟨⟨id, hid, h⟩, rfl⟩
      · next h => exact .of_ok hrun (by simp [Clashes, hid, h]) trivial
    refine ((resolveTypes_fails params).bind fun ps _ => (resolveType_fails returns).bind fun τ _ =>
      (resolve_fails type).bind (hadd ps τ)).congr fun e => ?_
    rw [Refuses, Edit.mentions, unknown_append, unknown_append, or_assoc, or_assoc]
  | layout => exact .of_ok rfl (by simp [Refuses, Unknown, Clashes, Edit.mentions]) trivial

theorem edit_cases (s : IndexedTable) (e : Edit) :
    ((s.edit e).2 = none ∧ ∀ refusal, ¬ s.Refuses e refusal) ∨
      ∃ refusal, (s.edit e).2 = some refusal ∧ s.Refuses e refusal ∧ (s.edit e).1 = s := by
  have hfails := attempt_fails s e
  unfold FailsBy at hfails
  unfold edit
  split at hfails
  · next hrun =>
    rw [hrun]
    exact .inl ⟨rfl, hfails.1⟩
  · next refusal _ hrun =>
    rw [hrun]
    exact .inr ⟨refusal, rfl, hfails⟩

/-! ## Records in step -/

section

variable {r : IndexedRecord} {c : ClassRecord}

theorem mem_fields (h : r.InStep c) {x : String} : x ∈ r.fields ↔ x ∈ r.fieldOrder := by
  rw [Std.HashMap.mem_iff_isSome_getElem?, h.fields, h.order, Option.isSome_map, ClassRecord.field?,
    List.find?_isSome]
  simp

theorem not_mem_fields (h : r.InStep c) {x : String} : x ∉ r.fields ↔ c.field? x = none := by
  simp [Std.HashMap.mem_iff_isSome_getElem?, h.fields]

theorem not_mem_methods (h : r.InStep c) {key : MemberKey} : key ∉ r.methods ↔ c.method? key = none := by
  simp [Std.HashMap.mem_iff_isSome_getElem?, h.methods]

theorem empty_inStep (id : TypeId) (name : String) (span : Span) :
    (IndexedRecord.empty id name span).InStep (.empty name span) where
  name := rfl
  parent := rfl
  isBuiltin := rfl
  isSealed := rfl
  span := rfl
  fieldCount := rfl
  order := rfl
  once := List.nodup_nil
  fields _ := Std.HashMap.getElem?_empty
  methods _ := Std.HashMap.getElem?_empty

theorem addField_inStep (h : r.InStep c) {f : Field} (hnew : f.name ∉ r.fields) :
    ((r.pushName f.name).enterField f.name f.info).InStep { c with fields := c.fields ++ [f] } :=
  { h with
    order := by simp [IndexedRecord.pushName, IndexedRecord.enterField, h.order]
    once := nodup_snoc h.once ((mem_fields h).not.mp hnew)
    fields := fun x => by
      change (r.fields.insert f.name f.info)[x]? = ((c.fields ++ [f]).find? (·.name == x)).map Field.info
      rw [Std.HashMap.getElem?_insert, find_snoc ((not_mem_fields h).mp hnew), h.fields]
      by_cases hx : f.name = x <;> simp [hx, ClassRecord.field?] }

theorem addMethod_inStep (h : r.InStep c) {m : Method} (hnew : m.key ∉ r.methods) :
    (r.enterMethod m.key m.info).InStep { c with methods := c.methods ++ [m] } :=
  { h with
    methods := fun key => by
      change (r.methods.insert m.key m.info)[key]? = ((c.methods ++ [m]).find? (·.key == key)).map Method.info
      rw [Std.HashMap.getElem?_insert, find_snoc ((not_mem_methods h).mp hnew), h.methods]
      by_cases hkey : m.key = key <;> simp [hkey, ClassRecord.method?] }

theorem names_placeFields (start : Nat) (fs : List Field) :
    (ClassRecord.placeFields start fs).map (·.name) = fs.map (·.name) :=
  (ClassTable.names_of_blank (ClassTable.LayoutLemmas.placeFields_blank start fs)).1

/-- The entries of some names get the slots that the fields of these names get, and the others stay. -/
theorem placeNames_eq {fs : List Field} (hnodup : (fs.map (·.name)).Nodup) (start : Nat)
    {fields : Std.HashMap String FieldInfo} (hfields : ∀ f ∈ fs, fields[f.name]? = some f.info) (x : String) :
    (IndexedRecord.placeNames start fields (fs.map (·.name)))[x]? =
      (((ClassRecord.placeFields start fs).find? (·.name == x)).map Field.info).or fields[x]? := by
  induction fs generalizing start fields with
  | nil => rfl
  | cons f fs ih =>
    obtain ⟨hnot, hnodup⟩ : f.name ∉ fs.map (·.name) ∧ (fs.map (·.name)).Nodup := List.nodup_cons.mp hnodup
    have hrest : ∀ g ∈ fs, (fields.modify f.name ({ · with offset := start }))[g.name]? = some g.info := by
      intro g hg
      have hne : f.name ≠ g.name := fun heq => hnot (heq ▸ List.mem_map_of_mem hg)
      rw [Std.HashMap.getElem?_modify, if_neg (by simpa using hne)]
      exact hfields g (List.mem_cons_of_mem f hg)
    rw [List.map_cons, IndexedRecord.placeNames, ih hnodup (start + 1) hrest, ClassRecord.placeFields]
    by_cases hx : f.name = x
    · subst hx
      have hnone : (ClassRecord.placeFields (start + 1) fs).find? (·.name == f.name) = none := by
        rw [← names_placeFields (start + 1)] at hnot
        simpa using hnot
      rw [hnone, Std.HashMap.getElem?_modify_self, hfields f List.mem_cons_self, List.find?_cons_of_pos]
      · rfl
      · exact beq_self_eq_true f.name
    · rw [List.find?_cons_of_neg (by simpa using hx), Std.HashMap.getElem?_modify, if_neg (by simpa using hx)]

theorem place_inStep (h : r.InStep c) (start : Nat) : (r.place start).InStep (c.place start) :=
  { h with
    fieldCount := by rw [IndexedRecord.place, ClassRecord.place, h.order, List.length_map]
    order := h.order.trans (names_placeFields start c.fields).symm
    fields := fun x => by
      have hnodup : (c.fields.map (·.name)).Nodup := h.order ▸ h.once
      have hfound : ∀ f ∈ c.fields, r.fields[f.name]? = some f.info := fun f hf => by
        rw [h.fields, (ClassTable.EditLemmas.field_iff hnodup f.name f).mpr ⟨hf, rfl⟩, Option.map_some]
      change (IndexedRecord.placeNames start r.fields r.fieldOrder)[x]? = _
      rw [h.order, placeNames_eq hnodup start hfound, h.fields]
      change Option.or (((c.place start).field? x).map Field.info) _ = _
      -- A name that none of the placed fields has is that of no field.
      cases hplaced : (c.place start).field? x with
      | some f => rfl
      | none =>
        have hnone : c.field? x = none := by
          have hname : x ∉ (ClassRecord.placeFields start c.fields).map (·.name) := by
            simpa [ClassRecord.field?, ClassRecord.place] using hplaced
          rw [names_placeFields] at hname
          simpa [ClassRecord.field?] using hname
        rw [hnone]
        rfl }

end

/-! ## Tables in step -/

section

open Hierarchy.HierarchyLemmas

variable {t : ClassTable}

theorem record_cases (h : s.InStep t) (id : TypeId) : (s.record? id = none ∧ t.record? id = none) ∨
    ∃ r c, s.record? id = some r ∧ t.record? id = some c ∧ r.id = id ∧ r.InStep c := by
  by_cases hid : id < t.size
  · obtain ⟨c, hc⟩ := ClassTable.exists_record hid
    have hid' : id < s.size := h.size.symm ▸ hid
    have hr : s.record? id = some s.types[id] := List.getElem?_eq_getElem hid'
    exact .inr ⟨_, c, hr, hc, h.records id _ c hr hc⟩
  · have hid' : ¬ id < s.size := h.size ▸ hid
    exact .inl ⟨List.getElem?_eq_none_iff.mpr (Nat.le_of_not_lt hid'), List.getElem?_eq_none_iff.mpr (Nat.le_of_not_lt hid)⟩

theorem parent_eq (h : s.InStep t) (id : TypeId) : s.parent? id = t.parent? id := by
  rw [parent?, ClassTable.parent?]
  rcases record_cases h id with ⟨hr, hc⟩ | ⟨r, c, hr, hc, _, hstep⟩
  · rw [hr, hc]
    rfl
  · rw [hr, hc]
    exact hstep.parent

theorem fieldCount_eq (h : s.InStep t) (id : TypeId) : s.fieldCount? id = t.fieldCount? id := by
  rw [fieldCount?, ClassTable.fieldCount?]
  rcases record_cases h id with ⟨hr, hc⟩ | ⟨r, c, hr, hc, _, hstep⟩
  · rw [hr, hc]
    rfl
  · rw [hr, hc]
    exact hstep.fieldCount

theorem ancestors_eq (h : s.InStep t) (id : TypeId) : s.ancestors id = t.ancestors id := by
  rw [ancestors, ClassTable.ancestors, h.size, funext (parent_eq h)]

theorem record_update (s : IndexedTable) (id j : TypeId) (f : IndexedRecord → IndexedRecord) :
    (s.update id f).record? j = if id = j then (s.record? j).map f else s.record? j := by
  simp only [update, record?, List.getElem?_modify]
  split <;> simp

theorem update_update (s : IndexedTable) (id : TypeId) (f g : IndexedRecord → IndexedRecord) :
    (s.update id f).update id g = s.update id (g ∘ f) := by
  simp only [update, List.modify_modify_eq]

/-- A class is changed in the same way in both tables. -/
theorem update_inStep (h : s.InStep t) {f : IndexedRecord → IndexedRecord} {g : ClassRecord → ClassRecord}
    (hname : ∀ c, (g c).name = c.name)
    (hfg : ∀ r c, s.record? id = some r → r.InStep c → (f r).id = r.id ∧ (f r).InStep (g c)) :
    (s.update id f).InStep (t.modify id g) where
  size := by
    rw [size_modify, ← h.size]
    exact List.length_modify f s.types id
  names x := by
    rw [find_modify t id g hname]
    exact h.names x
  records j r c hr hc := by
    rw [record_update] at hr
    rw [record_modify] at hc
    by_cases hj : id = j
    · subst hj
      rw [if_pos rfl] at hr hc
      obtain ⟨r₀, hr₀, rfl⟩ := Option.map_eq_some_iff.mp hr
      obtain ⟨c₀, hc₀, rfl⟩ := Option.map_eq_some_iff.mp hc
      obtain ⟨hid, hstep⟩ := h.records id r₀ c₀ hr₀ hc₀
      obtain ⟨hsame, hstep⟩ := hfg r₀ c₀ hr₀ hstep
      exact ⟨hsame.trans hid, hstep⟩
    · rw [if_neg hj] at hr hc
      exact h.records j r c hr hc

/-- A class with a new name is entered in both tables. -/
theorem enter_inStep (h : s.InStep t) {r : IndexedRecord} {c : ClassRecord} (hr : r.InStep c)
    (hid : r.id = s.size) (hnew : t.find? c.name = none) :
    ((s.pushType r).enterName c.name s.size).InStep ⟨t.records ++ [c]⟩ where
  size := by
    have hsize : s.types.length = t.records.length := h.size
    simp [enterName, pushType, size, ClassTable.size, hsize]
  names x := by
    rw [ClassTable.EditLemmas.find_append]
    change (s.byName.insert c.name s.size)[x]? = _
    rw [Std.HashMap.getElem?_insert, h.names]
    by_cases hx : c.name = x
    · subst hx
      simp [hnew, h.size]
    · simp [hx]
  records j r' c' hr' hc' := by
    have hsize : s.types.length = t.records.length := h.size
    rcases getElem_snoc.mp hr' with hr' | ⟨rfl, rfl⟩
    · rcases getElem_snoc.mp hc' with hc' | ⟨rfl, _⟩
      · exact h.records j r' c' hr' hc'
      · exact absurd (List.getElem?_eq_some_iff.mp hr').1 (hsize ▸ Nat.lt_irrefl _)
    · rcases getElem_snoc.mp hc' with hc' | ⟨_, rfl⟩
      · exact absurd (List.getElem?_eq_some_iff.mp hc').1 (hsize ▸ Nat.lt_irrefl _)
      · exact ⟨hid, hr⟩

theorem layoutOwn_inStep (h : s.InStep t) (start : Nat) (id : TypeId) :
    (layoutOwn (start, s) id).1 = (ClassTable.layoutOwn (start, t) id).1 ∧
      (layoutOwn (start, s) id).2.InStep (ClassTable.layoutOwn (start, t) id).2 := by
  simp only [layoutOwn, ClassTable.layoutOwn, fieldCount_eq h]
  cases t.fieldCount? id with
  | some count => exact ⟨rfl, h⟩
  | none =>
    refine ⟨?_, update_inStep h (fun _ => rfl) fun r c _ hstep => ⟨rfl, place_inStep hstep start⟩⟩
    rcases record_cases h id with ⟨hr, hc⟩ | ⟨r, c, hr, hc, _, hstep⟩
    · rw [hr, hc]
      rfl
    · rw [hr, hc]
      simp [hstep.order]

theorem layoutClass_inStep (h : s.InStep t) (id : TypeId) : (s.layoutClass id).InStep (t.layoutClass id) := by
  rw [layoutClass, ClassTable.layoutClass, fieldCount_eq h, ancestors_eq h]
  cases t.fieldCount? id with
  | some count => exact h
  | none =>
    have hchain := List.foldl_rel (l := (t.ancestors id).reverse) (f := layoutOwn) (g := ClassTable.layoutOwn)
      (r := fun state state' => state.1 = state'.1 ∧ state.2.InStep state'.2) (a := (0, s)) (b := (0, t)) ⟨rfl, h⟩
      fun a _ (n, s) (n', t) ⟨hn, hs⟩ => by
        cases hn
        exact layoutOwn_inStep hs n a
    exact hchain.2

theorem layout_inStep (h : s.InStep t) : s.layout.InStep t.layout := by
  rw [layout, ClassTable.layout, h.size]
  exact List.foldl_rel h fun id _ _ _ h => layoutClass_inStep h id

/-! ## Steps in step -/

/-- A computation does what one on the class table does: it fails as that fails, and has changed nothing then, or
its result and what it leaves agree with what that gives. -/
def Follows (s : IndexedTable) (x : Update α) (agree : α → IndexedTable → β → Prop) :
    Except SemanticError β → Prop
  | .ok b => ∃ a s', x.run s = .ok a s' ∧ agree a s' b
  | .error e => x.run s = .error e s

/-- A lookup finds what one in the class table finds, and changes nothing. -/
def Looks (s : IndexedTable) (x : Update α) : Except SemanticError α → Prop :=
  Follows s x fun a s' b => s' = s ∧ a = b

theorem Follows.of_run {x' : Update α} {agree : α → IndexedTable → β → Prop} {y : Except SemanticError β}
    (hrun : x.run s = x'.run s) (h : Follows s x' agree y) : Follows s x agree y := by
  unfold Follows at h ⊢
  rwa [hrun]

theorem Looks.bind {γ : Type} {y : Except SemanticError α} {f : α → Update β} {g : α → Except SemanticError γ}
    {agree : β → IndexedTable → γ → Prop} (hx : Looks s x y)
    (hf : ∀ a, y = .ok a → Follows s (f a) agree (g a)) : Follows s (x >>= f) agree (y >>= g) := by
  cases y with
  | error e =>
    have hrun : x.run s = .error e s := hx
    change (x >>= f).run s = .error e s
    rw [EStateM.run_bind, hrun]
  | ok b =>
    obtain ⟨a, s', hrun, rfl, rfl⟩ := hx
    refine Follows.of_run ?_ (hf a rfl)
    rw [EStateM.run_bind, hrun]

theorem pure_looks (a : α) : Looks s (pure a) (.ok a) := ⟨a, s, rfl, rfl, rfl⟩

theorem resolve_looks (h : s.InStep t) (name : Ident) : Looks s (resolve name) (t.resolve name) := by
  have hrun := resolve_run s name
  rw [h.names] at hrun
  unfold ClassTable.resolve
  split
  · next id hfind =>
    rw [hfind] at hrun
    exact ⟨id, s, hrun, rfl, rfl⟩
  · next hfind =>
    rw [hfind] at hrun
    exact hrun

theorem resolveType_looks (h : s.InStep t) (written : TypeName) :
    Looks s (resolveType written) (t.resolveType written) := by
  cases written with
  | named name | optional name span => exact (resolve_looks h name).bind fun id _ => pure_looks _
  | null span => exact pure_looks _

theorem resolveTypes_looks (h : s.InStep t) (written : List TypeName) :
    Looks s (written.mapM resolveType) (written.mapM t.resolveType) := by
  induction written with
  | nil => exact pure_looks []
  | cons w ws ih =>
    rw [List.mapM_cons, List.mapM_cons]
    exact (resolveType_looks h w).bind fun τ _ => ih.bind fun τs _ => pure_looks _

theorem hasField_eq (h : s.InStep t) (id : TypeId) (x : String) :
    s.hasField id x = ((t.record? id).bind (·.field? x)).isSome := by
  rw [hasField]
  rcases record_cases h id with ⟨hr, hc⟩ | ⟨r, c, hr, hc, _, hstep⟩
  · rw [hr, hc]
    rfl
  · rw [hr, hc, Option.any_some, Std.HashMap.contains_eq_isSome_getElem?, hstep.fields, Option.isSome_map]
    rfl

theorem hasMethod_eq (h : s.InStep t) (id : TypeId) (key : MemberKey) :
    s.hasMethod id key = ((t.record? id).bind (·.method? key)).isSome := by
  rw [hasMethod]
  rcases record_cases h id with ⟨hr, hc⟩ | ⟨r, c, hr, hc, _, hstep⟩
  · rw [hr, hc]
    rfl
  · rw [hr, hc, Option.any_some, Std.HashMap.contains_eq_isSome_getElem?, hstep.methods, Option.isSome_map]
    rfl

theorem setParent_follows (h : s.InStep t) (id : TypeId) (p : Option TypeId) :
    Follows s (setParent id p) (fun _ s' t' => s'.InStep t') (.ok (t.setParent id p)) :=
  ⟨(), _, rfl, update_inStep h (fun _ => rfl) fun _ _ _ hstep => ⟨rfl, { hstep with parent := rfl }⟩⟩

theorem addField_follows (h : s.InStep t) (id : TypeId) (name : Ident) (access : Access) (τ : Ty) :
    Follows s (addField id name access τ) (fun _ s' t' => s'.InStep t') (t.addField id name access τ) := by
  have hrun := addField_run s id name access τ
  rw [hasField_eq h] at hrun
  unfold ClassTable.addField
  split
  · next hfound =>
    rw [hfound] at hrun
    exact hrun
  · next hfree =>
    rw [hfree] at hrun
    refine ⟨(), _, hrun, ?_⟩
    rw [update_update]
    refine update_inStep h (fun _ => rfl) fun r c hr hstep =>
      ⟨rfl, addField_inStep hstep (f := ⟨name.name, access, τ, 0, name.span⟩) ?_⟩
    have hhas := hasField_eq h id name.name
    rw [hfree, hasField, hr] at hhas
    simpa using hhas

theorem addMethod_follows (h : s.InStep t) (id : TypeId) (m : Method) :
    Follows s (addMethod id m.key m.info) (fun _ s' t' => s'.InStep t') (t.addMethod id m) := by
  have hrun := addMethod_run s id m.key m.info
  rw [hasMethod_eq h] at hrun
  unfold ClassTable.addMethod
  split
  · next hfound =>
    rw [hfound] at hrun
    exact hrun
  · next hfree =>
    rw [hfree] at hrun
    refine ⟨(), _, hrun, update_inStep h (fun _ => rfl) fun r c hr hstep => ⟨rfl, addMethod_inStep hstep ?_⟩⟩
    have hhas := hasMethod_eq h id m.key
    rw [hfree, hasMethod, hr] at hhas
    simpa using hhas

/-- A step on either table leaves tables in step, or it is refused for the same reason. -/
theorem attempt_follows (h : s.InStep t) (e : Edit) :
    Follows s (attempt e) (fun _ s' t' => s'.InStep t') (t.attempt e) := by
  cases e with
  | declare name =>
    have hrun := attempt_declare_run s name
    simp only [Std.HashMap.mem_iff_isSome_getElem?, h.names] at hrun
    simp only [ClassTable.attempt, ClassTable.declare]
    cases hfind : t.find? name.name with
    | some id =>
      rw [hfind] at hrun
      exact hrun
    | none =>
      rw [hfind] at hrun
      exact ⟨(), _, hrun, enter_inStep h (empty_inStep s.size name.name name.span) rfl hfind⟩
  | setParent type parent =>
    cases parent with
    | none => exact (resolve_looks h type).bind fun id _ => setParent_follows h id none
    | some parent =>
      exact (resolve_looks h parent).bind fun p _ => (resolve_looks h type).bind fun id _ =>
        setParent_follows h id (some p)
  | addField type name access written =>
    exact (resolveType_looks h written).bind fun τ _ => (resolve_looks h type).bind fun id _ =>
      addField_follows h id name access τ
  | addMethod type key access params returns isOverride span =>
    exact (resolveTypes_looks h params).bind fun ps _ => (resolveType_looks h returns).bind fun τ _ =>
      (resolve_looks h type).bind fun id _ =>
        addMethod_follows h id ⟨key, access, ps, τ, isOverride, span⟩
  | layout => exact ⟨(), s.layout, rfl, layout_inStep h⟩

/-- A step on either table leaves tables in step, and it has the same answer. -/
theorem edit_inStep (h : s.InStep t) (e : Edit) : (s.edit e).1.InStep (t.edit e).1 ∧ (s.edit e).2 = (t.edit e).2 := by
  have hfollows := attempt_follows h e
  unfold edit ClassTable.edit
  cases hattempt : t.attempt e with
  | ok t' =>
    rw [hattempt] at hfollows
    obtain ⟨_, s', hrun, hstep⟩ := hfollows
    rw [hrun]
    exact ⟨hstep, rfl⟩
  | error refusal =>
    rw [hattempt] at hfollows
    have hrun : (attempt e).run s = .error refusal s := hfollows
    rw [hrun]
    exact ⟨h, rfl⟩

theorem edits_inStep (h : s.InStep t) (es : List Edit) :
    (s.edits es).1.InStep (t.edits es).1 ∧ (s.edits es).2 = (t.edits es).2 := by
  induction es generalizing s t with
  | nil => exact ⟨h, rfl⟩
  | cons e es ih =>
    obtain ⟨hstep, hanswer⟩ := edit_inStep h e
    obtain ⟨hrest, hanswers⟩ := ih hstep
    exact ⟨hrest, congrArg₂ _ hanswer hanswers⟩

/-! ## The built-in classes -/

theorem addFields_inStep {r : IndexedRecord} {c : ClassRecord} (h : r.InStep c) {fs : List (String × Ty)}
    (hnodup : (c.fields.map (·.name) ++ fs.map (·.1)).Nodup) :
    (fs.foldl (fun r f => (r.pushName f.1).enterField f.1 ⟨.everyone, f.2, 0, .none⟩) r).InStep
      { c with fields := c.fields ++ fs.map fun f => ⟨f.1, .everyone, f.2, 0, .none⟩ } := by
  induction fs generalizing r c with
  | nil => simpa using h
  | cons f fs ih =>
    have hnew : f.1 ∉ r.fields := by
      rw [mem_fields h, h.order]
      exact fun hmem => List.disjoint_of_nodup_append hnodup hmem List.mem_cons_self
    have hrest := ih (addField_inStep h (f := ⟨f.1, .everyone, f.2, 0, .none⟩) hnew) (by simpa using hnodup)
    simpa [Field.info] using hrest

theorem addMethods_inStep {r : IndexedRecord} {c : ClassRecord} (h : r.InStep c) {ms : List BuiltinMethod}
    (hnodup : (c.methods.map (·.key) ++ ms.map (·.key)).Nodup) :
    (ms.foldl (fun r m => r.enterMethod m.key ⟨.everyone, m.params, m.returns, false, .none⟩) r).InStep
      { c with methods := c.methods ++ ms.map fun m =>
        ⟨m.key, .everyone, m.params, m.returns, false, .none⟩ } := by
  induction ms generalizing r c with
  | nil => simpa using h
  | cons m ms ih =>
    have hnew : m.key ∉ r.methods := by
      rw [not_mem_methods h, ClassRecord.method?, List.find?_eq_none]
      intro m' hm' heq
      exact List.disjoint_of_nodup_append hnodup (List.mem_map_of_mem hm') (by simp [eq_of_beq heq])
    have hrest := ih (addMethod_inStep h (m := ⟨m.key, .everyone, m.params, m.returns, false, .none⟩) hnew)
      (by simpa using hnodup)
    simpa [Method.info] using hrest

theorem ofBuiltin_inStep (id : TypeId) {c : BuiltinClass} (hfields : (c.fields.map (·.1)).Nodup)
    (hmethods : (c.methods.map (·.key)).Nodup) : (IndexedRecord.ofBuiltin id c).InStep (.ofBuiltin c) := by
  have hbare : { IndexedRecord.empty id c.name .none with
      parent := c.parent, isBuiltin := true, isSealed := c.isSealed }.InStep
      { ClassRecord.empty c.name .none with parent := c.parent, isBuiltin := true, isSealed := c.isSealed } :=
    { empty_inStep id c.name .none with parent := rfl, isBuiltin := rfl, isSealed := rfl }
  have hkeys : ((c.methods.filter (·.key ≠ .initializer)).map (·.key)).Nodup :=
    hmethods.sublist (List.filter_sublist.map _)
  exact addMethods_inStep (addFields_inStep hbare hfields) hkeys

theorem ofBuiltin_id (id : TypeId) (c : BuiltinClass) : (IndexedRecord.ofBuiltin id c).id = id := by
  have hfold {γ : Type} (f : IndexedRecord → γ → IndexedRecord) (hf : ∀ r a, (f r a).id = r.id) (l : List γ)
      (r : IndexedRecord) : (l.foldl f r).id = r.id := by
    induction l generalizing r with
    | nil => rfl
    | cons a l ih => exact (ih _).trans (hf r a)
  rw [IndexedRecord.ofBuiltin, hfold, hfold]
  · rfl
  · exact fun _ _ => rfl
  · exact fun _ _ => rfl

/-- Built-in classes with new names are entered behind the classes that are there. -/
theorem addBuiltins_inStep (h : s.InStep t) (cs : List BuiltinClass)
    (hclasses : ∀ c ∈ cs, ∀ id, (IndexedRecord.ofBuiltin id c).InStep (.ofBuiltin c))
    (hnodup : (t.records.map (·.name) ++ cs.map (·.name)).Nodup) :
    ((cs.zipIdx s.size).foldl addBuiltin s).InStep ⟨t.records ++ cs.map .ofBuiltin⟩ := by
  induction cs generalizing s t with
  | nil => simpa using h
  | cons c cs ih =>
    have hnew : t.find? c.name = none := by
      refine List.findIdx?_eq_none_iff.mpr fun r hr => ?_
      simpa using fun heq => List.disjoint_of_nodup_append hnodup (List.mem_map_of_mem hr) (by simp [heq])
    have hfirst : (s.addBuiltin (c, s.size)).InStep ⟨t.records ++ [.ofBuiltin c]⟩ :=
      enter_inStep h (hclasses c List.mem_cons_self s.size) (ofBuiltin_id s.size c) hnew
    have hsize : (s.addBuiltin (c, s.size)).size = s.size + 1 := List.length_append
    have hrest := ih hfirst (fun c hc => hclasses c (List.mem_cons_of_mem _ hc))
      (by simpa [ClassRecord.ofBuiltin] using hnodup)
    rw [List.zipIdx_cons, List.foldl_cons, ← hsize]
    simpa using hrest

theorem standard_inStep : standard.InStep ClassTable.standard := by
  have hempty : empty.InStep ⟨[]⟩ := ⟨rfl, fun _ => Std.HashMap.getElem?_empty, fun _ _ _ hr => by cases hr⟩
  have hmembers : ∀ c ∈ Builtin.classes, (c.fields.map (·.1)).Nodup ∧ (c.methods.map (·.key)).Nodup := by decide
  have hbuiltin := addBuiltins_inStep hempty Builtin.classes
    (fun c hc id => ofBuiltin_inStep id (hmembers c hc).1 (hmembers c hc).2) (by decide)
  have hunit : IndexedRecord.unit.InStep ClassRecord.unit :=
    { empty_inStep TypeId.unit "unit" .none with isBuiltin := rfl, isSealed := rfl }
  exact layout_inStep (enter_inStep hbuiltin hunit (by rw [hbuiltin.size]; decide) (by decide))

/-! ## The shape -/

theorem fieldNames_eq (h : s.InStep t) (className : String) : s.fieldNames className = t.fieldNames className := by
  rw [fieldNames, ClassTable.fieldNames, h.names]
  cases t.find? className with
  | none => rfl
  | some id =>
    rw [Option.bind_some, Option.bind_some]
    rcases record_cases h id with ⟨hr, hc⟩ | ⟨r, c, hr, hc, _, hstep⟩
    · rw [hr, hc]
      rfl
    · rw [hr, hc]
      exact hstep.order

/-- In step with a well-formed table, a class is found by its own name and by no other. -/
theorem names_iff (h : s.InStep t) (hwell : t.Wellformed) (name : String) (id : TypeId) :
    s.byName[name]? = some id ↔ ∃ r, s.record? id = some r ∧ r.name = name := by
  rw [h.names, Hierarchy.find_iff hwell.names]
  rcases record_cases h id with ⟨hr, hc⟩ | ⟨r, c, hr, hc, _, hstep⟩
  · simp [hr, hc]
  · simp [hr, hc, hstep.name]

theorem shape_of_inStep (h : s.InStep t) (hwell : t.Wellformed) {steps : List (Edit × Option SemanticError)}
    (horder : ∀ className, s.fieldNames className = standard.fieldNames className ++ registered className steps) :
    s.Shape steps := by
  have hrecord (id : TypeId) (r : IndexedRecord) (hr : s.record? id = some r) : ∃ c, r.id = id ∧ r.InStep c := by
    rcases record_cases h id with ⟨hnone, _⟩ | ⟨r', c, hr', _, hid, hstep⟩
    · cases hr.symm.trans hnone
    · cases hr.symm.trans hr'
      exact ⟨c, hid, hstep⟩
  constructor
  case ids =>
    intro id r hr
    obtain ⟨c, hid, _⟩ := hrecord id r hr
    exact hid
  case names => exact names_iff h hwell
  case parents =>
    intro id p hp
    rw [parent_eq h] at hp
    exact h.size ▸ (hwell.parents id p hp).2
  case listed =>
    intro id r hr x
    obtain ⟨c, _, hstep⟩ := hrecord id r hr
    exact (mem_fields hstep).symm
  case once =>
    intro id r hr
    obtain ⟨c, _, hstep⟩ := hrecord id r hr
    exact hstep.once
  case order =>
    intro id r hr
    rw [← horder, fieldNames, (names_iff h hwell r.name id).mpr ⟨r, hr, rfl⟩, Option.bind_some, hr]
    rfl

/-- What one table keeps of another, the tables in step with them keep. -/
theorem persists_of_keeps {s' : IndexedTable} {t' : ClassTable} (h : s.InStep t) (h' : s'.InStep t')
    (hkeeps : t.Keeps t') (hwell : t'.Wellformed) : s.Persists s' := by
  -- A class of `s` is that of `t` at its index, which `t'` keeps, and `s'` has it there.
  have hrecord (id : TypeId) (r : IndexedRecord) (hr : s.record? id = some r) : ∃ c r' c', r.InStep c ∧
      s'.record? id = some r' ∧ r'.InStep c' ∧ c.Kept c' := by
    rcases record_cases h id with ⟨hnone, _⟩ | ⟨r₀, c, hr₀, hc, _, hstep⟩
    · cases hr.symm.trans hnone
    · cases hr.symm.trans hr₀
      obtain ⟨c', hc', hkept⟩ := hkeeps id c hc
      rcases record_cases h' id with ⟨_, hnone⟩ | ⟨r', c₀, hr', hc₀, _, hstep'⟩
      · cases hc'.symm.trans hnone
      · cases hc'.symm.trans hc₀
        exact ⟨c, r', c', hstep, hr', hstep', hkept⟩
  constructor
  case classes =>
    intro name id hfind
    rw [h.names] at hfind
    obtain ⟨c, hc, rfl⟩ := ClassTable.EditLemmas.record_of_find hfind
    obtain ⟨c', hc', hkept⟩ := hkeeps id c hc
    rw [h'.names]
    exact (Hierarchy.find_iff hwell.names).mpr ⟨c', hc', hkept.name⟩
  case fields =>
    intro id x f hf
    obtain ⟨r, hr, hf⟩ := Option.bind_eq_some_iff.mp hf
    obtain ⟨c, r', c', hstep, hr', hstep', hkept⟩ := hrecord id r hr
    rw [hstep.fields] at hf
    obtain ⟨g, hg, rfl⟩ := Option.map_eq_some_iff.mp hf
    obtain ⟨offset, hg'⟩ := ClassTable.EditLemmas.field_kept hkept hg
    refine ⟨offset, ?_⟩
    rw [hr', Option.bind_some, hstep'.fields, hg']
    rfl
  case methods =>
    intro id key m hm
    obtain ⟨r, hr, hm⟩ := Option.bind_eq_some_iff.mp hm
    obtain ⟨c, r', c', hstep, hr', hstep', hkept⟩ := hrecord id r hr
    rw [hstep.methods] at hm
    obtain ⟨g, hg, rfl⟩ := Option.map_eq_some_iff.mp hm
    rw [hr', Option.bind_some, hstep'.methods, ClassTable.EditLemmas.method_kept hkept hg]
    rfl

end

end StepLemmas

open StepLemmas ClassTable.EditLemmas

/-- Whatever steps are taken from the built-in classes on, the parts of the table agree. A step is refused if and
only if there is a reason to, and then the table stays as it was. What is there before a step stays to the end,
so that the first declaration of a name always wins. A class table that is searched gives the same answers and is
in step at the end. -/
theorem edits_keep_shape (es : List Edit) :
    (standard.edits es).1.Shape (es.zip (standard.edits es).2) ∧
    (∀ k e, es[k]? = some e →
      let before := (standard.edits (es.take k)).1
      ((standard.edits es).2[k]? = some none ∧ (∀ refusal, ¬ before.Refuses e refusal) ∨
        ∃ refusal, (standard.edits es).2[k]? = some (some refusal) ∧ before.Refuses e refusal ∧
          (standard.edits (es.take (k + 1))).1 = before) ∧
      before.Persists (standard.edits es).1) ∧
    (standard.edits es).2 = (ClassTable.standard.edits es).2 ∧
    (standard.edits es).1.InStep (ClassTable.standard.edits es).1 := by
  obtain ⟨hstep, hanswers⟩ := edits_inStep standard_inStep es
  have hwell := edits_wellformed standard_wellformed es
  refine ⟨shape_of_inStep hstep hwell fun className => ?_, fun k e he => ⟨?_, ?_⟩, hanswers, hstep⟩
  · rw [fieldNames_eq hstep, fieldNames_eq standard_inStep, hanswers]
    exact edits_fieldNames ClassTable.standard es className
  · have hanswer : (standard.edits es).2[k]? = some ((standard.edits (es.take k)).1.edit e).2 :=
      (run_answer es k).trans (by rw [he, Option.map_some]; rfl)
    have hafter : (standard.edits (es.take (k + 1))).1 = ((standard.edits (es.take k)).1.edit e).1 :=
      run_take_succ he
    rw [hanswer, hafter]
    rcases edit_cases (standard.edits (es.take k)).1 e with ⟨hnone, hno⟩ | ⟨refusal, hsome, hreason, hsame⟩
    · exact .inl ⟨congrArg some hnone, hno⟩
    · exact .inr ⟨refusal, congrArg some hsome, hreason, hsame⟩
  · refine persists_of_keeps (edits_inStep standard_inStep (es.take k)).1 hstep ?_ hwell
    have hrest : (ClassTable.standard.edits es).1 =
        ((ClassTable.standard.edits (es.take k)).1.edits (es.drop k)).1 := by
      conv => lhs; rw [← List.take_append_drop k es]
      exact run_append _ _
    rw [hrest]
    exact edits_keeps _ _

/-- The second field of the name is refused, and the first one stays. -/
theorem animalEdits_keep_shape :
    (standard.edits animalEdits).1.Shape (animalEdits.zip (standard.edits animalEdits).2) ∧
    ∃ e refusal, animalEdits[2]? = some e ∧ (standard.edits animalEdits).2[2]? = some (some refusal) ∧
      (standard.edits (animalEdits.take 2)).1.Refuses e refusal ∧
      (standard.edits (animalEdits.take 3)).1 = (standard.edits (animalEdits.take 2)).1 ∧
      (standard.edits (animalEdits.take 2)).1.Persists (standard.edits animalEdits).1 := by
  obtain ⟨hshape, hsteps, hanswers, _⟩ := edits_keep_shape animalEdits
  obtain ⟨hanswer, hpersists⟩ := hsteps 2 _ rfl
  rcases hanswer with ⟨htaken, _⟩ | ⟨refusal, hrefused, hreason, hsame⟩
  · rw [hanswers] at htaken
    exact absurd htaken (by decide +kernel)
  · exact ⟨hshape, _, refusal, rfl, hrefused, hreason, hsame, hpersists⟩

end IndexedTable

end ClassLang
