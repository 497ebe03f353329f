import ClassLang.Proofs.Calls

/-!
# Initialized fields

A new object has null in all of its fields, whatever their types are, so the promise of a type that
excludes null holds only from the initialization of a field on. `Analysis.initializes` is the discipline
by which no field is read before: a field whose type excludes null has an initializer, and initializers
use the object that they work on for nothing but reading fields that are initialized by then.

`Value.Fits` is the promise of a type, and `ObjectsFit` that of all types of the fields of all objects, but
for those that are being initialized, the raw ones. A well-typed program never gets hold of a raw object
other than its receiver. Reading, writing and making objects keep all this (`ObjectsFit.read`,
`ObjectsFit.write`, `ObjectsFit.allocate`).
-/

namespace ClassLang

/-! ## Which programs initialize their fields -/

/-- Null is a value of the type. -/
def Ty.admitsNull (τ : Ty) : Bool := τ.isNullable || τ == .unit

namespace Expr

/-- The receiver, as an object of its class or of the parent. -/
def isReceiver {ν : Type} : Expr ν → Bool
  | .this _ | .base _ => true
  | _ => false

mutual

/-- An expression makes do with a receiver whose fields are initialized below the slot `limit`: it reads
these fields and those that may be null, and does nothing else with the receiver. Without a limit there is
nothing to heed. -/
def usesReady (t : ClassTable) (limit : Option Nat) : Expr Typing → Bool
  | .this _ | .base _ => limit.isNone
  | .member object property _ =>
    if object.isReceiver then
      limit.all fun n =>
        ((object.note.type.bind Ty.class?).bind (t.lookupField? · property.name)).all fun found =>
          found.2.offset < n || found.2.type.admitsNull
    else object.usesReady t limit
  | .call (.member object _ _) arguments _ =>
    object.usesReady t limit && usesReadyAll t limit arguments
  | .call _ arguments _ => usesReadyAll t limit arguments
  | .new _ arguments _ => usesReadyAll t limit arguments
  | .assign (.member object _ _) value _ => object.usesReady t limit && value.usesReady t limit
  | .assign _ value _ => value.usesReady t limit
  | .binary _ left right _ => left.usesReady t limit && right.usesReady t limit
  | .unary _ e _ | .assert e _ | .instanceTest e _ _ | .cast e _ _ => e.usesReady t limit
  | .number .. | .string .. | .boolean .. | .null .. | .name .. => true

/-- `usesReady` for each of several expressions. -/
def usesReadyAll (t : ClassTable) (limit : Option Nat) : List (Expr Typing) → Bool
  | [] => true
  | e :: es => e.usesReady t limit && usesReadyAll t limit es

end

mutual

theorem usesReady_none (t : ClassTable) : ∀ e : Expr Typing, e.usesReady t none = true
  | .this _ | .base _ => rfl
  | .member object _ _ => by
    rw [usesReady]
    split
    · rfl
    · exact usesReady_none t object
  | .call callee arguments _ => by
    cases callee with
    | member object _ _ => simp [usesReady, usesReady_none t object, usesReadyAll_none t arguments]
    | _ => simp [usesReady, usesReadyAll_none t arguments]
  | .new _ arguments _ => by simp [usesReady, usesReadyAll_none t arguments]
  | .assign target value _ => by
    cases target with
    | member object _ _ => simp [usesReady, usesReady_none t object, usesReady_none t value]
    | _ => simp [usesReady, usesReady_none t value]
  | .binary _ left right _ => by simp [usesReady, usesReady_none t left, usesReady_none t right]
  | .unary _ e _ | .assert e _ | .instanceTest e _ _ | .cast e _ _ => by
    simp [usesReady, usesReady_none t e]
  | .number .. | .string .. | .boolean .. | .null .. | .name .. => rfl

theorem usesReadyAll_none (t : ClassTable) :
    ∀ es : List (Expr Typing), usesReadyAll t none es = true
  | [] => rfl
  | e :: es => by simp [usesReadyAll, usesReady_none t e, usesReadyAll_none t es]

end

end Expr

/-- A field of a class that excludes null has an initializer, and an initializer makes do with the fields
in front of its own. -/
def ClassTable.initializes (t : ClassTable) (id : TypeId) (d : FieldDecl Typing) : Bool :=
  (t.lookupField? id d.name.name).all fun found =>
    match d.initializer with
    | some e => e.usesReady t (some found.2.offset)
    | none => found.2.type.admitsNull

/-- Every class initializes its fields before they are read. -/
def Analysis.initializes (a : Analysis) : Bool :=
  a.program.classes.zipIdx.all fun c =>
    c.1.fields.all (a.classes.initializes (TypeId.first + c.2))

theorem Analysis.initializes_iff {a : Analysis} : a.initializes = true ↔
    ∀ (i : Nat) d, a.program.classes[i]? = some d → ∀ fd ∈ d.fields,
      a.classes.initializes (TypeId.first + i) fd = true := by
  simp only [initializes, List.all_eq_true, Prod.forall, List.mem_zipIdx_iff_getElem?]
  exact ⟨fun h i d hd => h d i hd, fun h d i hd => h i d hd⟩

/-! ## Values that keep the promise of a type -/

/-- The field `f` of the class `owner` is one of the instances of a class. -/
def ClassTable.HasField (t : ClassTable) (id owner : Nat) (f : Field) : Prop :=
  owner ∈ t.ancestors id ∧ ∃ r, t.record? owner = some r ∧ f ∈ r.fields

theorem ClassTable.HasField.of_lookup {t : ClassTable} {id owner : Nat} {x : String} {f : Field}
    (h : t.lookupField? id x = some (owner, f)) : t.HasField id owner f := by
  obtain ⟨hanc, r, hr, hf⟩ := ClassTable.lookupField_some h
  exact ⟨hanc, r, hr, List.mem_of_find?_eq_some hf⟩

theorem ClassTable.HasField.inherit {t : ClassTable} (ht : t.Rooted) {sub sup owner : Nat} {f : Field}
    (hsub : t.isSubclass sub sup = true) (h : t.HasField sup owner f) : t.HasField sub owner f :=
  ⟨ClassTable.isSubclass_iff.mp
    (ClassTable.isSubclass_trans ht hsub (ClassTable.isSubclass_iff.mpr h.1)), h.2⟩

/-- A value of a type: null only if the type admits it, and no raw object. -/
structure Value.Fits (t : ClassTable) (objects : List Instance) (raw : Nat → Prop) (v : Value)
    (τ : Ty) : Prop where
  typed : v.HasType t objects τ
  present : v = .null → τ.admitsNull = true
  ready : ∀ i, v = .object i → ¬ raw i

/-- The fields of all objects hold values of their types, where for raw objects this is said only of fields
that may be null. -/
structure ObjectsFit (t : ClassTable) (raw : Nat → Prop) (objects : List Instance) : Prop where
  populated : Populated t objects
  bound : ∀ i, raw i → i < objects.length
  fields : ∀ (i : Nat) o owner f, objects[i]? = some o → t.HasField o.classId owner f →
    (¬ raw i ∨ f.type.admitsNull = true) → (o.fields owner f.name).Fits t objects raw f.type

/-- Objects keep their addresses and classes, and raw objects also what is in their fields. -/
structure Evolves (raw : Nat → Prop) (objects objects' : List Instance) : Prop where
  keeps : Keeps objects objects'
  frozen : ∀ i, raw i → objects'[i]? = objects[i]?

namespace Evolves

variable {raw : Nat → Prop} {objects objects' objects'' : List Instance}

theorem refl : Evolves raw objects objects := ⟨.refl, fun _ _ => rfl⟩

theorem trans (h : Evolves raw objects objects') (h' : Evolves raw objects' objects'') :
    Evolves raw objects objects'' :=
  ⟨h.keeps.trans h'.keeps, fun i hi => (h'.frozen i hi).trans (h.frozen i hi)⟩

theorem lower {raw' : Nat → Prop} (h : Evolves raw objects objects') (hraw : ∀ i, raw' i → raw i) :
    Evolves raw' objects objects' :=
  ⟨h.keeps, fun i hi => h.frozen i (hraw i hi)⟩

end Evolves

namespace Value.Fits

variable {t : ClassTable} {objects objects' : List Instance} {raw raw' : Nat → Prop} {v : Value}
  {σ τ : Ty}

theorem keeps (h : v.Fits t objects raw τ) (hk : Keeps objects objects') :
    v.Fits t objects' raw τ :=
  ⟨h.typed.keeps hk, h.present, h.ready⟩

theorem null (h : τ.admitsNull = true) : Value.null.Fits t objects raw τ :=
  ⟨.null, fun _ => h, nofun⟩

theorem of_ne (h : v.HasType t objects τ) (hne : v ≠ .null) (hready : ∀ i, v = .object i → ¬ raw i) :
    v.Fits t objects raw τ :=
  ⟨h, fun hv => absurd hv hne, hready⟩

/-- Fewer raw objects. -/
theorem lower (h : v.Fits t objects raw τ) (hraw : ∀ i, raw' i → raw i) : v.Fits t objects raw' τ :=
  ⟨h.typed, h.present, fun i hi hr => h.ready i hi (hraw i hr)⟩

/-- A value is none of the objects that come after it. -/
theorem raise (h : v.Fits t objects raw τ) (hraw : ∀ i, raw' i → raw i ∨ objects.length ≤ i) :
    v.Fits t objects raw' τ := by
  refine ⟨h.typed, h.present, fun i hi hr => ?_⟩
  rcases hraw i hr with hr | hle
  · exact h.ready i hi hr
  · subst hi
    rcases h.typed with hnull | ⟨id, c, hid, _⟩
    · cases hnull
    · simp only [Value.classId?, List.getElem?_eq_none hle, Option.map_none] at hid
      cases hid

/-- A value of a class other than the unit type is not null. -/
theorem ne_null {id : Nat} (h : v.Fits t objects raw (.plain id)) (hne : id ≠ TypeId.unit) :
    v ≠ .null := by
  intro hv
  have := h.present hv
  simp [Ty.admitsNull, Ty.isNullable, Ty.unit, hne] at this

end Value.Fits

section

variable {a : Analysis} (W : WellTyped a) {objects : List Instance} {raw : Nat → Prop} {v w : Value}
  {σ τ : Ty}

include W

theorem WellTyped.unit_parent : a.classes.parent? TypeId.unit = none := by
  have hall : ∀ r ∈ ClassTable.standard.record? TypeId.unit, r.parent = none := by decide +kernel
  obtain ⟨r, hr, _⟩ := Hierarchy.HierarchyLemmas.standard_record TypeId.unit (by decide)
  rw [ClassTable.parent_of_record ((W.builtin _ (by decide)).trans hr), hall r hr]

/-- The unit type inherits from no other class. -/
theorem WellTyped.unit_subclass {id : Nat} (h : a.classes.isSubclass TypeId.unit id = true) :
    id = TypeId.unit :=
  (ClassTable.isSubclass_root (Nat.lt_of_lt_of_le (by decide) W.first_le) W.unit_parent).mp h

/-- A value keeps the promise of every type that takes its own. -/
theorem Value.Fits.assign (h : v.Fits a.classes objects raw σ)
    (hστ : a.classes.isAssignable σ τ = true) : v.Fits a.classes objects raw τ := by
  refine ⟨h.typed.assign W.rooted hστ, fun hv => ?_, h.ready⟩
  have hnull := h.present hv
  cases σ with
  | null => cases τ <;> first | rfl | cases hστ
  | option s => cases τ <;> first | rfl | cases hστ
  | plain s =>
    obtain rfl : s = TypeId.unit := by
      simpa [Ty.admitsNull, Ty.isNullable, Ty.unit] using hnull
    cases τ with
    | plain u =>
      obtain rfl := W.unit_subclass hστ
      rfl
    | option u => rfl
    | null => cases hστ

theorem Value.Fits.number (x : Float) : (Value.number x).Fits a.classes objects raw .number :=
  .of_ne (CallsLemmas.number_typed W x) (by simp) (by simp)

theorem Value.Fits.boolean (b : Bool) : (Value.boolean b).Fits a.classes objects raw .boolean :=
  .of_ne (CallsLemmas.boolean_typed W b) (by simp) (by simp)

theorem Value.Fits.string (c : String) : (Value.string c).Fits a.classes objects raw .string :=
  .of_ne (CallsLemmas.string_typed W c) (by simp) (by simp)

end

/-! ## Evaluations without faults about null -/

/-- A fault that a program asks for: an assertion or a cast that fails, or input that is no text. -/
def Fault.Deliberate : Fault → Prop
  | .nullAssertion | .invalidCast _ _ | .malformedInput => True
  | _ => False

/-- An evaluation gives what is promised if it gives anything, and faults deliberately if it faults. -/
def Sure {α : Type} (P : α → EvalState → Prop) : Except Stop α × EvalState → Prop
  | (.ok v, s) => P v s
  | (.error (.fault cause), _) => cause.Deliberate
  | (.error _, _) => True

namespace Sure

variable {α β : Type} {P P' : α → EvalState → Prop} {Q : β → EvalState → Prop} {s : EvalState}

theorem pure {v : α} (h : P v s) : Sure P ((Pure.pure v : Eval α) s) := h

theorem bind {x : Eval α} {f : α → Eval β} (h : Sure P (x s))
    (hf : ∀ v s', P v s' → Sure Q (f v s')) : Sure Q ((x >>= f) s) := by
  cases hx : x s with
  | mk y s' =>
    rw [hx] at h
    cases y with
    | ok v =>
      rw [Eval.bind_ok hx]
      exact hf v s' h
    | error e =>
      rw [Eval.bind_error hx]
      cases e <;> exact h

theorem mono {r : Except Stop α × EvalState} (h : Sure P r) (hP : ∀ v s, P v s → P' v s) :
    Sure P' r := by
  obtain ⟨x, s'⟩ := r
  match x with
  | .ok v => exact hP v s' h
  | .error (.fault cause) => exact h
  | .error .stuck | .error .unfinished => exact h

/-- A change of the state behind an evaluation. -/
theorem map {x : Except Stop α × EvalState} (g : EvalState → EvalState)
    (h : Sure (fun v s' => P v (g s')) x) : Sure P (x.1, g x.2) := by
  obtain ⟨y, s'⟩ := x
  match y with
  | .ok v => exact h
  | .error (.fault cause) => exact h
  | .error .stuck | .error .unfinished => exact h

end Sure

/-! ## Objects -/

namespace ObjectsFit

variable {a : Analysis} {objects : List Instance} {raw : Nat → Prop} {v w : Value} {id owner : Nat}
  {x : String} {f : Field} {s : EvalState} {τ : Ty}

/-- Raw objects that are initialized are raw no more. -/
theorem finish {raw' : Nat → Prop} (H : ObjectsFit a.classes raw objects)
    (hraw : ∀ i, raw' i → raw i)
    (hdone : ∀ (i : Nat) o owner f, raw i → ¬ raw' i → objects[i]? = some o →
      a.classes.HasField o.classId owner f →
      (o.fields owner f.name).Fits a.classes objects raw f.type) :
    ObjectsFit a.classes raw' objects := by
  refine ⟨H.populated, fun i hi => H.bound i (hraw i hi), fun i o owner f ho hf hc => ?_⟩
  by_cases hi : raw i
  · rcases hc with hn | hnull
    · exact (hdone i o owner f hi hn ho hf).lower hraw
    · exact (H.fields i o owner f ho hf (.inr hnull)).lower hraw
  · exact (H.fields i o owner f ho hf (.inl hi)).lower hraw

variable (W : WellTyped a)

include W

theorem number (H : ObjectsFit a.classes raw objects) (hv : v.Fits a.classes objects raw .number) :
    ∃ x, v = .number x :=
  (H.populated.number_cases W hv.typed).resolve_left (hv.ne_null (by decide))

theorem boolean (H : ObjectsFit a.classes raw objects) (hv : v.Fits a.classes objects raw .boolean) :
    ∃ b, v = .boolean b :=
  (H.populated.boolean_cases W hv.typed).resolve_left (hv.ne_null (by decide))

theorem string (H : ObjectsFit a.classes raw objects) (hv : v.Fits a.classes objects raw .string) :
    ∃ c, v = .string c :=
  (H.populated.string_cases W hv.typed).resolve_left (hv.ne_null (by decide))

/-- A value is of its own class. -/
theorem of_classId (H : ObjectsFit a.classes raw objects) (hv : v.Fits a.classes objects raw τ)
    (hid : v.classId? objects = some id) : v.Fits a.classes objects raw (.plain id) := by
  have hlt := (H.populated.classId_lt W hid).1
  refine .of_ne (.of_class hid rfl (ClassTable.isSubclass_refl hlt)) ?_ hv.ready
  rintro rfl
  cases hid

/-- Reading a field gives a value of its type. -/
theorem read (H : ObjectsFit a.classes raw s.objects)
    (hv : v.Fits a.classes s.objects raw (.plain id)) (hne : id ≠ TypeId.unit)
    (hf : a.classes.HasField id owner f) :
    Sure (fun w s' => s' = s ∧ w.Fits a.classes s.objects raw f.type)
      (Evaluate.readField owner f v s) := by
  rcases hv.typed with hnull | ⟨k, c, hk, hc, hsub⟩
  · exact absurd hnull (hv.ne_null hne)
  cases hc
  have hfield := hf.inherit W.rooted hsub
  cases v with
  | object i =>
    simp only [Value.classId?, Option.map_eq_some_iff] at hk
    obtain ⟨o, ho, rfl⟩ := hk
    simp only [Evaluate.readField, Eval.state, Bind.bind, ho]
    exact ⟨rfl, H.fields i o owner f ho hfield (.inl (hv.ready i rfl))⟩
  | string str =>
    cases hk
    obtain ⟨hanc, r, hr, hmem⟩ := hfield
    obtain ⟨_, _, htype⟩ := W.builtin_fields (by decide) (ClassTable.isSubclass_iff.mpr hanc) hr hmem
    exact ⟨rfl, htype ▸ .number W _⟩
  | null => cases hk
  | number | boolean => trivial

/-- Changing a field. -/
theorem set (H : ObjectsFit a.classes raw objects) {i : Nat} {o : Instance}
    (ho : objects[i]? = some o) (hf : a.classes.HasField o.classId owner f)
    (hb : a.classes.isBuiltin owner = false) (hw : w.Fits a.classes objects raw f.type) :
    ObjectsFit a.classes raw (objects.modify i (·.set owner f.name w)) := by
  have hk : Keeps objects (objects.modify i (·.set owner f.name w)) := .modify _ _ _ _
  obtain ⟨_, r, hr, hmem⟩ := hf
  have hrb : r.isBuiltin = false := by simpa [ClassTable.isBuiltin, hr] using hb
  refine ⟨fun j o' ho' => ?_, fun j hj => by simpa using H.bound j hj,
    fun j o' owner' g ho' hg hc => ?_⟩
  · rw [List.getElem?_modify] at ho'
    obtain ⟨o'', ho'', rfl⟩ := Option.map_eq_some_iff.mp ho'
    have hin := H.populated j o'' ho''
    split <;> exact hin
  · rw [List.getElem?_modify] at ho'
    obtain ⟨o'', ho'', rfl⟩ := Option.map_eq_some_iff.mp ho'
    by_cases hij : i = j
    · subst hij
      rw [ho] at ho''
      cases ho''
      rw [if_pos rfl] at hg ⊢
      -- Two fields of one class have different names, so that only `f` itself has got the value.
      by_cases hsame : owner' = owner ∧ g.name = f.name
      · obtain ⟨rfl, hname⟩ := hsame
        obtain ⟨_, r', hr', hmem'⟩ := hg
        rw [hr] at hr'
        cases hr'
        obtain rfl := W.field_unique hr hmem' hmem hname hrb
        simpa [Instance.set] using hw.keeps hk
      · simpa [Instance.set, hsame] using (H.fields i o owner' g ho hg hc).keeps hk
    · rw [if_neg hij] at hg ⊢
      exact (H.fields j o'' owner' g ho'' hg hc).keeps hk

/-- Writing a field of an object that is not raw. -/
theorem write (H : ObjectsFit a.classes raw s.objects)
    (hv : v.Fits a.classes s.objects raw (.plain id)) (hne : id ≠ TypeId.unit)
    (hf : a.classes.HasField id owner f) (hb : a.classes.isBuiltin owner = false)
    (hw : w.Fits a.classes s.objects raw f.type) :
    Sure (fun _ s' => ObjectsFit a.classes raw s'.objects ∧ Evolves raw s.objects s'.objects ∧
      s'.locals = s.locals) (Evaluate.writeField owner f v w s) := by
  rcases hv.typed with hnull | ⟨k, c, hk, hc, hsub⟩
  · exact absurd hnull (hv.ne_null hne)
  cases hc
  cases v with
  | object i =>
    simp only [Value.classId?, Option.map_eq_some_iff] at hk
    obtain ⟨o, ho, rfl⟩ := hk
    refine ⟨H.set W ho (hf.inherit W.rooted hsub) hb hw, ⟨.modify _ _ _ _, fun j hj => ?_⟩, rfl⟩
    -- The object is the value of an expression, and such a value is not raw.
    have hij : i ≠ j := fun hij => hv.ready i rfl (hij ▸ hj)
    simp [hij]
  | null => cases hk
  | number | boolean | string => trivial

omit W in
/-- A new object is raw. -/
theorem allocate (H : ObjectsFit a.classes raw objects) (hid : a.classes.Inheritable id) :
    ObjectsFit a.classes (fun i => raw i ∨ i = objects.length)
      (objects ++ [⟨id, fun _ _ => .null⟩]) := by
  have hk : Keeps objects (objects ++ [⟨id, fun _ _ => .null⟩]) := .append _
  refine ⟨fun i o ho => ?_, fun i hi => ?_, fun i o owner f ho hf hc => ?_⟩
  · rw [List.getElem?_append] at ho
    split at ho
    · exact H.populated i o ho
    · rw [List.mem_singleton.mp (List.mem_of_getElem? ho)]
      exact hid
  · rw [List.length_append, List.length_singleton]
    rcases hi with hi | rfl
    · exact Nat.lt_succ_of_lt (H.bound i hi)
    · exact Nat.lt_succ_self _
  · rw [List.getElem?_append] at ho
    split at ho
    · next hlt =>
      have hc' : ¬ raw i ∨ f.type.admitsNull = true := hc.imp_left fun hn hi => hn (.inl hi)
      refine ((H.fields i o owner f ho hf hc').raise fun j hj => ?_).keeps hk
      exact hj.imp_right fun h => Nat.le_of_eq h.symm
    · next hge =>
      -- A field of the new object holds null, which is promised only where its type admits that.
      have hi : i = objects.length := by
        have := (List.getElem?_eq_some_iff.mp ho).1
        simp only [List.length_singleton] at this
        omega
      rw [List.mem_singleton.mp (List.mem_of_getElem? ho)]
      exact .null (hc.resolve_left fun hn => hn (.inr hi))

end ObjectsFit

/-! ## Local names -/

/-- The local names hold values of their types. -/
def LocalsFit (t : ClassTable) (objects : List Instance) (raw : Nat → Prop)
    (locals : List (String × Value)) (visible : List Binding) : Prop :=
  List.Forall₂ (fun b β => b.1 = β.name ∧ b.2.Fits t objects raw β.type) locals visible

namespace LocalsFit

variable {t : ClassTable} {objects objects' : List Instance} {raw : Nat → Prop}
  {locals : List (String × Value)} {visible inner : List Binding} {x : String} {τ : Ty} {v : Value}

theorem keeps (h : LocalsFit t objects raw locals visible) (hk : Keeps objects objects') :
    LocalsFit t objects' raw locals visible :=
  h.imp fun _ _ hb => ⟨hb.1, hb.2.keeps hk⟩

theorem lookup (h : LocalsFit t objects raw locals visible)
    (hτ : (visible.find? (·.name == x)).map (·.type) = some τ) :
    ∃ v, locals.lookup x = some v ∧ v.Fits t objects raw τ := by
  induction h with
  | nil => cases hτ
  | @cons b β locals visible hb _ ih =>
    obtain ⟨x', v⟩ := b
    obtain ⟨rfl, hv⟩ := hb
    rw [List.find?_cons] at hτ
    rw [List.lookup_cons]
    by_cases hx : x = β.name
    · subst hx
      simp only [beq_self_eq_true, Option.map_some, Option.some.injEq] at hτ ⊢
      exact ⟨v, rfl, hτ ▸ hv⟩
    · have hx' : (x == β.name) = false := by simpa using hx
      have hx'' : (β.name == x) = false := by simpa using Ne.symm hx
      simp only [hx', hx''] at hτ ⊢
      exact ih hτ

/-- Assigning to a name. -/
theorem rebind (h : LocalsFit t objects raw locals visible)
    (hτ : (visible.find? (·.name == x)).map (·.type) = some τ) (hv : v.Fits t objects raw τ) :
    LocalsFit t objects raw (Evaluate.rebind x v locals) visible := by
  induction h with
  | nil => cases hτ
  | @cons b β locals visible hb h ih =>
    obtain ⟨x', w⟩ := b
    obtain ⟨rfl, hw⟩ := hb
    rw [List.find?_cons] at hτ
    by_cases hx : β.name = x
    · subst hx
      simp only [beq_self_eq_true, Option.map_some, Option.some.injEq] at hτ
      rw [Evaluate.rebind, if_pos rfl]
      exact .cons ⟨rfl, hτ ▸ hv⟩ h
    · have hx' : (β.name == x) = false := by simpa using hx
      simp only [hx'] at hτ
      rw [Evaluate.rebind, if_neg hx]
      exact .cons ⟨rfl, hw⟩ (ih hτ)

/-- Leaving a scope. -/
theorem leave (h : LocalsFit t objects raw locals (inner ++ visible)) :
    LocalsFit t objects raw (locals.drop inner.length) visible := by
  have := List.forall₂_drop inner.length h
  simpa [LocalsFit] using this

end LocalsFit

end ClassLang
