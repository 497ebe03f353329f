import ClassLang.Proofs.Ascent
import ClassLang.Proofs.WellTyped

/-!
# Edits of the class table

The class table is built in steps that name the classes they are about: a class is declared, it gets a
parent, a field or a method, and all fields get their slots (`ClassTable.Edit`). Steps can be refused, and
they come in any order; parents can close cycles, and slots can be given between two fields.

Every step keeps the table well-formed (`ClassTable.Wellformed`) and keeps the classes and members that are
there (`ClassTable.Keeps`). A step that adds a field puts its name behind those that its class has. By
induction the same holds of any number of steps (`edits_wellformed`, `edits_keeps`, `edits_fieldNames`).
-/

namespace ClassLang

/-- The own members of one class are kept by another of its name, up to the slots of fields. -/
structure ClassRecord.Kept (r r' : ClassRecord) : Prop where
  name : r'.name = r.name
  fields : r.fields.map ClassTable.blankField <+: r'.fields.map ClassTable.blankField
  methods : r.methods <+: r'.methods

namespace ClassTable

/-! ## Steps -/

/-- A step by which a class table is built. -/
inductive Edit where
  | declare (name : Ident)
  | setParent (type : Ident) (parent : Option Ident)
  | addField (type name : Ident) (access : Access) (written : TypeName)
  | addMethod (type : Ident) (key : MemberKey) (access : Access) (params : List TypeName)
      (returns : TypeName) (isOverride : Bool) (span : Span)
  | layout
deriving DecidableEq, Repr

/-- The table behind a step, or why the step is refused. Written types are resolved before the class. -/
def attempt (t : ClassTable) : Edit → Except SemanticError ClassTable
  | .declare name => do return (← t.declare name).2
  | .setParent type none => do return t.setParent (← t.resolve type) none
  | .setParent type (some parent) => do
    let parent ← t.resolve parent
    return t.setParent (← t.resolve type) (some parent)
  | .addField type name access written => do
    let τ ← t.resolveType written
    t.addField (← t.resolve type) name access τ
  | .addMethod type key access params returns isOverride span => do
    let params ← params.mapM t.resolveType
    let returns ← t.resolveType returns
    t.addMethod (← t.resolve type) ⟨key, access, params, returns, isOverride, span⟩
  | .layout => .ok t.layout

/-- Takes steps in turn: what they leave, and the answer to each of them. -/
def Edit.run {σ : Type} (take : σ → Edit → σ × Option SemanticError) (s : σ) :
    List Edit → σ × List (Option SemanticError)
  | [] => (s, [])
  | e :: es => ((run take (take s e).1 es).1, (take s e).2 :: (run take (take s e).1 es).2)

/-- Takes a step and tells why it was refused, if it was. -/
def edit (t : ClassTable) (e : Edit) : ClassTable × Option SemanticError :=
  match t.attempt e with
  | .ok t' => (t', none)
  | .error refusal => (t, some refusal)

/-- Takes steps in turn, with the answer to each of them. -/
def edits (t : ClassTable) (es : List Edit) : ClassTable × List (Option SemanticError) := Edit.run edit t es

/-! ## Well-formed tables -/

/-- Names of classes are unique, parents are classes of the table, and no class has two fields of a name or
two methods of a key. -/
structure Wellformed (t : ClassTable) : Prop where
  names : (t.records.map (·.name)).Nodup
  parents : Within t.parent? t.size
  fields : ∀ (id : Nat) r, t.record? id = some r → (r.fields.map (·.name)).Nodup
  methods : ∀ (id : Nat) r, t.record? id = some r → (r.methods.map (·.key)).Nodup

/-- The classes of a table and their members are kept by another one. -/
def Keeps (t t' : ClassTable) : Prop :=
  ∀ (id : Nat) r, t.record? id = some r → ∃ r', t'.record? id = some r' ∧ r.Kept r'

/-- The names of the own fields of a class, in their order. -/
def fieldNames (t : ClassTable) (className : String) : List String :=
  (((t.find? className).bind t.record?).map (·.fields.map (·.name))).getD []

/-- The names that a step adds to the fields of a class. -/
def Edit.adds (className : String) : Edit → List String
  | .addField type name _ _ => if type.name = className then [name.name] else []
  | _ => []

/-- The names of the fields that a class got in steps that were not refused. -/
def registered (className : String) (steps : List (Edit × Option SemanticError)) : List String :=
  steps.flatMap fun (e, refusal) => if refusal.isNone then e.adds className else []

namespace EditLemmas

open Hierarchy Hierarchy.HierarchyLemmas LayoutLemmas AscentLemmas

variable {t t' : ClassTable} {id : TypeId}

/-! ## What is kept -/

theorem kept_refl (r : ClassRecord) : r.Kept r := ⟨rfl, List.prefix_refl _, List.prefix_refl _⟩

theorem kept_trans {r r' r'' : ClassRecord} (h : r.Kept r') (h' : r'.Kept r'') : r.Kept r'' :=
  ⟨h'.name.trans h.name, h.fields.trans h'.fields, h.methods.trans h'.methods⟩

theorem keeps_refl (t : ClassTable) : t.Keeps t := fun _ r hr => ⟨r, hr, kept_refl r⟩

theorem keeps_trans {t'' : ClassTable} (h : t.Keeps t') (h' : t'.Keeps t'') : t.Keeps t'' := by
  intro id r hr
  obtain ⟨r', hr', hkept⟩ := h id r hr
  obtain ⟨r'', hr'', hkept'⟩ := h' id r' hr'
  exact ⟨r'', hr'', kept_trans hkept hkept'⟩

theorem keeps_modify {f : ClassRecord → ClassRecord} (hf : ∀ r : ClassRecord, r.Kept (f r)) :
    t.Keeps (t.modify id f) := by
  intro j r hr
  rw [record_modify, hr]
  split
  · exact ⟨f r, rfl, hf r⟩
  · exact ⟨r, rfl, kept_refl r⟩

theorem keeps_of_lays (h : Lays t t') : t.Keeps t' := by
  intro id r hr
  obtain ⟨fields, count, hr', hfields⟩ := h.each id r hr
  exact ⟨_, hr', rfl, by simp only [hfields, List.prefix_rfl], List.prefix_refl _⟩

/-- A table with the same number of classes has the same names. -/
theorem names_of_keeps (h : t.Keeps t') (hsize : t'.size = t.size) :
    t'.records.map (·.name) = t.records.map (·.name) := by
  refine List.ext_getElem? fun i => ?_
  rw [List.getElem?_map, List.getElem?_map]
  change (t'.record? i).map _ = (t.record? i).map _
  cases hr : t.record? i with
  | none =>
    have hlen : t'.record? i = none :=
      List.getElem?_eq_none_iff.mpr (Nat.le_trans (Nat.le_of_eq hsize) (List.getElem?_eq_none_iff.mp hr))
    rw [hlen]
  | some r =>
    obtain ⟨r', hr', hkept⟩ := h i r hr
    rw [hr', Option.map_some, Option.map_some, hkept.name]

theorem find_of_keeps (h : t.Keeps t') (hsize : t'.size = t.size) (name : String) :
    t'.find? name = t.find? name := by
  have hfind (t : ClassTable) : t.find? name = (t.records.map (·.name)).findIdx? (· == name) := by
    rw [List.findIdx?_map]
    rfl
  rw [hfind, hfind, names_of_keeps h hsize]

theorem record_of_find {name : String} (h : t.find? name = some id) :
    ∃ r, t.record? id = some r ∧ r.name = name := by
  obtain ⟨hlt, hname, _⟩ := List.findIdx?_eq_some_iff_getElem.mp h
  exact ⟨_, List.getElem?_eq_getElem hlt, by simpa using hname⟩

/-! ## What a step does -/

/-- The effect of a step that is taken. -/
structure Effect (t t' : ClassTable) (e : Edit) : Prop where
  keeps : t.Keeps t'
  wellformed : t.Wellformed → t'.Wellformed
  fieldNames : ∀ className, t'.fieldNames className = t.fieldNames className ++ e.adds className

/-- One class is changed, which keeps its name, its members and its parent or a parent in the table. -/
theorem modify_wellformed {f : ClassRecord → ClassRecord} (h : t.Wellformed)
    (hf : ∀ r : ClassRecord, r.Kept (f r))
    (hparents : Within (t.modify id f).parent? (t.modify id f).size)
    (hmembers : ∀ r, t.record? id = some r →
      ((f r).fields.map (·.name)).Nodup ∧ ((f r).methods.map (·.key)).Nodup) :
    (t.modify id f).Wellformed := by
  have heach (j : Nat) (r' : ClassRecord) (hr' : (t.modify id f).record? j = some r') :
      (r'.fields.map (·.name)).Nodup ∧ (r'.methods.map (·.key)).Nodup := by
    rw [record_modify] at hr'
    split at hr'
    · next heq =>
      subst heq
      obtain ⟨r, hr, rfl⟩ := Option.map_eq_some_iff.mp hr'
      exact hmembers r hr
    · exact ⟨h.fields j r' hr', h.methods j r' hr'⟩
  refine ⟨?_, hparents, fun j r' hr' => (heach j r' hr').1, fun j r' hr' => (heach j r' hr').2⟩
  rw [names_of_keeps (keeps_modify hf) (size_modify t id f)]
  exact h.names

theorem modify_fieldNames {f : ClassRecord → ClassRecord} (names : List String)
    (hf : ∀ r : ClassRecord, r.Kept (f r))
    (hfields : ∀ r, (f r).fields.map (·.name) = r.fields.map (·.name) ++ names) (className : String) :
    (t.modify id f).fieldNames className =
      t.fieldNames className ++ if t.find? className = some id then names else [] := by
  rw [fieldNames, fieldNames, find_of_keeps (keeps_modify hf) (size_modify t id f)]
  cases hfind : t.find? className with
  | none => rfl
  | some j =>
    obtain ⟨r, hr, _⟩ := record_of_find hfind
    rw [Option.bind_some, Option.bind_some, record_modify, hr]
    by_cases heq : id = j
    · simp [heq, hfields]
    · simp [heq, Ne.symm heq]

theorem setParent_effect {type : Ident} {parent : Option Ident} {p : Option TypeId}
    (hp : ∀ q ∈ p, q < t.size) : Effect t (t.setParent id p) (.setParent type parent) := by
  have hkept (r : ClassRecord) : r.Kept { r with parent := p } :=
    ⟨rfl, List.prefix_refl _, List.prefix_refl _⟩
  refine ⟨keeps_modify hkept, fun h => ?_, fun className => ?_⟩
  · exact modify_wellformed h hkept (within_setParent h.parents hp) fun r hr =>
      ⟨h.fields id r hr, h.methods id r hr⟩
  · exact (modify_fieldNames [] hkept (by simp) className).trans (by simp [Edit.adds])

/-- A class behind the others is found by its name where no other class is. -/
theorem find_append (t : ClassTable) (c : ClassRecord) (name : String) :
    ClassTable.find? ⟨t.records ++ [c]⟩ name =
      (t.find? name).or (if c.name = name then some t.size else none) := by
  simp only [find?, List.findIdx?_append, List.findIdx?_singleton, beq_iff_eq]
  split <;> simp [size]

theorem declare_effect {x : Ident} (h : t.declare x = .ok (id, t')) : Effect t t' (.declare x) := by
  have hparents (hwell : t.Wellformed) := (within_declare hwell.parents h).1
  obtain ⟨hfree, rfl, rfl⟩ := declare_ok h
  have hnew (r : ClassRecord) (j : Nat)
      (hr : ClassTable.record? ⟨t.records ++ [.empty x.name x.span]⟩ j = some r) :
      t.record? j = some r ∨ r = .empty x.name x.span := by
    rcases getElem_snoc.mp hr with hold | ⟨_, rfl⟩
    · exact .inl hold
    · exact .inr rfl
  refine ⟨fun j r hr => ⟨r, ?_, kept_refl r⟩, fun hwell => ⟨?_, hparents hwell, ?_, ?_⟩, fun className => ?_⟩
  · rw [record?, List.getElem?_append_left (lt_of_record hr)]
    exact hr
  · simpa [ClassRecord.empty, List.nodup_append, hwell.names, find?] using hfree
  · intro j r hr
    rcases hnew r j hr with hold | rfl
    · exact hwell.fields j r hold
    · exact List.nodup_nil
  · intro j r hr
    rcases hnew r j hr with hold | rfl
    · exact hwell.methods j r hold
    · exact List.nodup_nil
  · change _ = _ ++ []
    rw [List.append_nil, fieldNames, fieldNames, find_append]
    cases hold : t.find? className with
    | some j =>
      obtain ⟨r, hr, _⟩ := record_of_find hold
      have hr' : ClassTable.record? ⟨t.records ++ [.empty x.name x.span]⟩ j = some r :=
        (List.getElem?_append_left (lt_of_record hr)).trans hr
      rw [Option.some_or, Option.bind_some, Option.bind_some, hr, hr']
    | none =>
      rw [Option.none_or]
      split
      · simp [record?, size, ClassRecord.empty]
      · rfl

theorem addField_effect {type x : Ident} {access : Access} {written : TypeName} {τ : Ty}
    (hid : t.find? type.name = some id) (h : t.addField id x access τ = .ok t') :
    Effect t t' (.addField type x access written) := by
  unfold addField at h
  split at h
  · cases h
  · next hfree =>
    cases h
    have hkept (r : ClassRecord) :
        r.Kept { r with fields := r.fields ++ [⟨x.name, access, τ, 0, x.span⟩] } :=
      ⟨rfl, by simp, List.prefix_refl _⟩
    refine ⟨keeps_modify hkept, fun h => ?_, fun className => ?_⟩
    · refine modify_wellformed h hkept (within_modify (fun _ => rfl) h.parents) fun r hr =>
        ⟨?_, h.methods id r hr⟩
      have hnot : x.name ∉ r.fields.map (·.name) := by simpa [hr, ClassRecord.field?] using hfree
      rw [List.map_append]
      exact nodup_snoc (h.fields id r hr) hnot
    · refine (modify_fieldNames [x.name] hkept (by simp) className).trans ?_
      -- The class found at `id` has one name.
      have hiff : t.find? className = some id ↔ type.name = className := by
        refine ⟨fun hfind => ?_, fun heq => heq ▸ hid⟩
        obtain ⟨r, hr, hname⟩ := record_of_find hid
        obtain ⟨r', hr', hname'⟩ := record_of_find hfind
        cases hr.symm.trans hr'
        exact hname.symm.trans hname'
      simp only [hiff, Edit.adds]

theorem addMethod_effect {type : Ident} {m : Method} {params : List TypeName} {returns : TypeName}
    (h : t.addMethod id m = .ok t') :
    Effect t t' (.addMethod type m.key m.access params returns m.isOverride m.span) := by
  unfold addMethod at h
  split at h
  · cases h
  · next hfree =>
    cases h
    have hkept (r : ClassRecord) : r.Kept { r with methods := r.methods ++ [m] } :=
      ⟨rfl, List.prefix_refl _, List.prefix_append _ _⟩
    refine ⟨keeps_modify hkept, fun h => ?_, fun className => ?_⟩
    · refine modify_wellformed h hkept (within_modify (fun _ => rfl) h.parents) fun r hr =>
        ⟨h.fields id r hr, ?_⟩
      have hnot : m.key ∉ r.methods.map (·.key) := by simpa [hr, ClassRecord.method?] using hfree
      rw [List.map_append]
      exact nodup_snoc (h.methods id r hr) hnot
    · exact (modify_fieldNames [] hkept (by simp) className).trans (by simp [Edit.adds])

theorem layout_effect (t : ClassTable) : Effect t t.layout .layout := by
  have hlays := layout_lays t
  have hkeeps := keeps_of_lays hlays
  have hold (j : Nat) (r' : ClassRecord) (hr' : t.layout.record? j = some r') : ∃ r, t.record? j = some r ∧
      r'.fields.map (·.name) = r.fields.map (·.name) ∧ r'.methods = r.methods := by
    obtain ⟨r, hr⟩ := exists_record (t := t) (hlays.size ▸ lt_of_record hr')
    obtain ⟨fields, count, hr'', hfields⟩ := hlays.each j r hr
    cases hr'.symm.trans hr''
    exact ⟨r, hr, (names_of_blank hfields).1, rfl⟩
  refine ⟨hkeeps, fun h => ⟨?_, ?_, fun j r' hr' => ?_, fun j r' hr' => ?_⟩, fun className => ?_⟩
  · rw [names_of_keeps hkeeps hlays.size]
    exact h.names
  · rw [hlays.size, funext (lays_parent hlays)]
    exact h.parents
  · obtain ⟨r, hr, hfields, _⟩ := hold j r' hr'
    rw [hfields]
    exact h.fields j r hr
  · obtain ⟨r, hr, _, hmethods⟩ := hold j r' hr'
    rw [hmethods]
    exact h.methods j r hr
  · change _ = _ ++ []
    rw [List.append_nil, fieldNames, fieldNames, find_of_keeps hkeeps hlays.size]
    cases hfind : t.find? className with
    | none => rfl
    | some j =>
      obtain ⟨r, hr, _⟩ := record_of_find hfind
      obtain ⟨fields, count, hr', hfields⟩ := hlays.each j r hr
      simp only [Option.bind_some, hr, hr', Option.map_some, Option.getD_some]
      exact (names_of_blank hfields).1

/-- A step that is not refused keeps what is there and adds what it says. -/
theorem attempt_effect {e : Edit} (h : t.attempt e = .ok t') : Effect t t' e := by
  cases e with
  | declare name =>
    simp only [attempt, bind_eq_ok, pure_eq_ok, Prod.exists] at h
    obtain ⟨id, _, hdeclare, rfl⟩ := h
    exact declare_effect hdeclare
  | setParent type parent =>
    cases parent with
    | none =>
      simp only [attempt, bind_eq_ok, pure_eq_ok] at h
      obtain ⟨id, _, rfl⟩ := h
      exact setParent_effect (by simp)
    | some parent =>
      simp only [attempt, bind_eq_ok, pure_eq_ok] at h
      obtain ⟨p, hp, id, _, rfl⟩ := h
      obtain ⟨r, hr, _⟩ := record_of_find (resolve_ok.mp hp)
      exact setParent_effect fun q hq => Option.some.inj hq ▸ lt_of_record hr
  | addField type name access written =>
    simp only [attempt, bind_eq_ok] at h
    obtain ⟨τ, _, id, hid, hadd⟩ := h
    exact addField_effect (resolve_ok.mp hid) hadd
  | addMethod type key access params returns isOverride span =>
    simp only [attempt, bind_eq_ok] at h
    obtain ⟨params', _, returns', _, id, _, hadd⟩ := h
    exact addMethod_effect hadd
  | layout =>
    cases h
    exact layout_effect t

theorem edit_cases (t : ClassTable) (e : Edit) :
    ((t.edit e).2 = none ∧ Effect t (t.edit e).1 e) ∨
      ∃ refusal, (t.edit e).2 = some refusal ∧ (t.edit e).1 = t := by
  unfold edit
  cases h : t.attempt e with
  | ok t' => exact .inl ⟨rfl, attempt_effect h⟩
  | error refusal => exact .inr ⟨refusal, rfl, rfl⟩

theorem edit_keeps (t : ClassTable) (e : Edit) : t.Keeps (t.edit e).1 := by
  rcases edit_cases t e with ⟨_, heffect⟩ | ⟨_, _, hsame⟩
  · exact heffect.keeps
  · exact hsame.symm ▸ keeps_refl t

theorem edit_wellformed (h : t.Wellformed) (e : Edit) : (t.edit e).1.Wellformed := by
  rcases edit_cases t e with ⟨_, heffect⟩ | ⟨_, _, hsame⟩
  · exact heffect.wellformed h
  · exact hsame.symm ▸ h

theorem edit_fieldNames (t : ClassTable) (e : Edit) (className : String) : (t.edit e).1.fieldNames className =
    t.fieldNames className ++ if (t.edit e).2.isNone then e.adds className else [] := by
  rcases edit_cases t e with ⟨hnone, heffect⟩ | ⟨refusal, hsome, hsame⟩
  · rw [hnone]
    exact heffect.fieldNames className
  · rw [hsome, hsame]
    exact (List.append_nil _).symm

/-! ## Sequences of steps -/

section

variable {σ : Type} {take : σ → Edit → σ × Option SemanticError} {s : σ}

/-- What every step keeps, a sequence of steps keeps. -/
theorem run_invariant {P : σ → Prop} (hstep : ∀ s e, P s → P (take s e).1) (hs : P s) (es : List Edit) :
    P (Edit.run take s es).1 := by
  induction es generalizing s with
  | nil => exact hs
  | cons e es ih => exact ih (hstep s e hs)

/-- Steps are taken one after the other. -/
theorem run_append (es es' : List Edit) :
    (Edit.run take s (es ++ es')).1 = (Edit.run take (Edit.run take s es).1 es').1 := by
  induction es generalizing s with
  | nil => rfl
  | cons e es ih => exact ih

theorem run_take_succ {es : List Edit} {k : Nat} {e : Edit} (he : es[k]? = some e) :
    (Edit.run take s (es.take (k + 1))).1 = (take (Edit.run take s (es.take k)).1 e).1 := by
  rw [List.take_add_one, he, Option.toList_some, run_append]
  rfl

theorem run_answer (es : List Edit) (k : Nat) :
    (Edit.run take s es).2[k]? = es[k]?.map fun e => (take (Edit.run take s (es.take k)).1 e).2 := by
  induction es generalizing s k with
  | nil => rfl
  | cons e es ih =>
    cases k with
    | zero => rfl
    | succ k => exact ih k

end

theorem edits_keeps (t : ClassTable) (es : List Edit) : t.Keeps (t.edits es).1 :=
  run_invariant (P := t.Keeps) (fun _ e h => keeps_trans h (edit_keeps _ e)) (keeps_refl t) es

theorem edits_wellformed (h : t.Wellformed) (es : List Edit) : (t.edits es).1.Wellformed :=
  run_invariant (P := Wellformed) (fun _ e h => edit_wellformed h e) h es

theorem edits_fieldNames (t : ClassTable) (es : List Edit) (className : String) :
    (t.edits es).1.fieldNames className =
      t.fieldNames className ++ registered className (es.zip (t.edits es).2) := by
  induction es generalizing t with
  | nil => exact (List.append_nil _).symm
  | cons e es ih =>
    change ((t.edit e).1.edits es).1.fieldNames className = _
    rw [ih, edit_fieldNames, List.append_assoc]
    rfl

theorem standard_wellformed : standard.Wellformed := by
  refine ⟨by decide +kernel, within_standard, fun id r hr => ?_, fun id r hr => ?_⟩
  · have hall : ∀ r ∈ standard.records, (r.fields.map (·.name)).Nodup := by decide +kernel
    exact hall r (List.mem_of_getElem? hr)
  · have hall : ∀ r ∈ standard.records, (r.methods.map (·.key)).Nodup := by decide +kernel
    exact hall r (List.mem_of_getElem? hr)

theorem field_kept {r r' : ClassRecord} {x : String} {f : Field} (h : r.Kept r') (hf : r.field? x = some f) :
    ∃ offset, r'.field? x = some { f with offset } := by
  have hblank (r : ClassRecord) : (r.fields.map blankField).find? (·.name == x) =
      (r.field? x).map blankField := List.find?_map
  obtain ⟨new, hnew⟩ := h.fields
  have hfound : (r'.field? x).map blankField = some (blankField f) := by
    rw [← hblank, ← hnew, List.find?_append, hblank, hf]
    rfl
  obtain ⟨f', hf', hsame⟩ := Option.map_eq_some_iff.mp hfound
  refine ⟨f'.offset, hf'.trans (congrArg some ?_)⟩
  simp only [blankField, Field.mk.injEq] at hsame
  obtain ⟨hname, haccess, htype, _, hspan⟩ := hsame
  cases f'
  simp [← hname, ← haccess, ← htype, ← hspan]

theorem method_kept {r r' : ClassRecord} {key : MemberKey} {m : Method} (h : r.Kept r')
    (hm : r.method? key = some m) : r'.method? key = some m := by
  obtain ⟨new, hnew⟩ := h.methods
  unfold ClassRecord.method? at hm ⊢
  rw [← hnew, List.find?_append, hm]
  rfl

/-- Where all names are different, a field is found by its name. -/
theorem field_iff {r : ClassRecord} (h : (r.fields.map (·.name)).Nodup) (x : String) (f : Field) :
    r.field? x = some f ↔ f ∈ r.fields ∧ f.name = x := by
  refine ⟨fun hf => ⟨List.mem_of_find?_eq_some hf, by simpa using List.find?_some hf⟩, ?_⟩
  rintro ⟨hf, rfl⟩
  exact find_of_nodup h hf

end EditLemmas

/-- Steps of which three are refused: a field of a name that is there, a class of a name that is there, and a
field of a type that is not. The class becomes its own parent. -/
def animalEdits : List Edit :=
  let animal : Ident := ⟨"Animal", .none⟩
  [.declare animal, .addField animal ⟨"legs", .none⟩ .everyone (.named ⟨"number", .none⟩),
    .addField animal ⟨"legs", .none⟩ .owner (.named ⟨"string", .none⟩), .layout, .declare animal,
    .addField animal ⟨"wings", .none⟩ .owner (.named ⟨"Wing", .none⟩), .setParent animal (some animal),
    .addField animal ⟨"name", .none⟩ .owner (.named ⟨"string", .none⟩)]

example : (standard.edits animalEdits).1.fieldNames "Animal" = ["legs", "name"] := by decide +kernel

end ClassTable

end ClassLang
