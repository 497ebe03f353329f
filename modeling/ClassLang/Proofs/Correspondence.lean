import ClassLang.Proofs.Execution
import Mathlib.Data.List.Nodup

/-!
# Trees and machines

The states of an evaluation and of the machine side by side. Addresses are the same on both sides and so
are values. An object has the construct of its class and keeps each field in its slot, with a value of
the declared type (`ObjectRel`); reading, writing and making objects keep this (`field_read`,
`field_write`, `HeapRel.allocate`). The local names lie in the slots from 1 on, in the order in which they
were bound (`LocalsRel`).

A value has a type if it is null or of a subclass (`Value.HasType`). Null has every type: a field holds
it until it is initialized, whatever its type is.
-/

namespace ClassLang

/-- A value is null or of a class that is or inherits from that of the type. -/
def Value.HasType (t : ClassTable) (objects : List Instance) (v : Value) (τ : Ty) : Prop :=
  v = .null ∨ ∃ id c, v.classId? objects = some id ∧ τ.class? = some c ∧ t.isSubclass id c = true

/-- Objects keep their addresses and classes. -/
def Keeps (objects objects' : List Instance) : Prop :=
  ∀ (i : Nat) o, objects[i]? = some o → ∃ o', objects'[i]? = some o' ∧ o'.classId = o.classId

/-- An object of an evaluation and one of the machine. -/
structure ObjectRel (t : ClassTable) (objects : List Instance) (o : Instance) (obj : Object) : Prop where
  inheritable : t.Inheritable o.classId
  construct : obj.construct = TypeId.index o.classId
  size : obj.fields.size = t.fieldCount o.classId
  fields : ∀ owner ∈ t.ancestors o.classId, ∀ r, t.record? owner = some r → ∀ f ∈ r.fields,
    obj.fields[f.offset]? = some (o.fields owner f.name) ∧
      (o.fields owner f.name).HasType t objects f.type

/-- The objects of an evaluation and the heap of the machine. -/
structure HeapRel (t : ClassTable) (objects : List Instance) (h : Heap) : Prop where
  size : h.objects.size = objects.length
  each : ∀ (i : Nat) o, objects[i]? = some o → ∃ obj, h.get? i = some obj ∧ ObjectRel t objects o obj

/-- The local names of an evaluation, with values of their types, and the slots of a frame. -/
structure LocalsRel (t : ClassTable) (objects : List Instance) (visible : List Binding)
    (locals : List (String × Value)) (this : Value) (slots : Array Value) : Prop where
  typed : List.Forall₂ (fun b β => b.1 = β.name ∧ b.2.HasType t objects β.type) locals visible
  slots : ∃ spare, slots.toList = this :: (locals.map (·.2)).reverse ++ spare

namespace Keeps

variable {objects objects' objects'' : List Instance}

theorem refl : Keeps objects objects := fun _ o h => ⟨o, h, rfl⟩

theorem trans (h : Keeps objects objects') (h' : Keeps objects' objects'') :
    Keeps objects objects'' := by
  intro i o ho
  obtain ⟨o', ho', hid⟩ := h i o ho
  obtain ⟨o'', ho'', hid'⟩ := h' i o' ho'
  exact ⟨o'', ho'', hid'.trans hid⟩

theorem append (o : Instance) : Keeps objects (objects ++ [o]) := fun i o' h =>
  ⟨o', by rw [List.getElem?_append_left (List.getElem?_eq_some_iff.mp h).1, h], rfl⟩

theorem modify (address owner : Nat) (x : String) (v : Value) :
    Keeps objects (objects.modify address (·.set owner x v)) := by
  intro i o h
  rw [List.getElem?_modify]
  split <;> simp [h, Instance.set]

end Keeps

namespace Value

variable {t : ClassTable} {objects objects' : List Instance} {v : Value} {σ τ : Ty}

theorem kind_null : v.kind = .null ↔ v = .null := by
  cases v <;> simp [kind]

theorem classId_keeps (h : Keeps objects objects') {id : Nat} (hv : v.classId? objects = some id) :
    v.classId? objects' = some id := by
  cases v with
  | object address =>
    simp only [classId?, Option.map_eq_some_iff] at hv ⊢
    obtain ⟨o, ho, rfl⟩ := hv
    obtain ⟨o', ho', hid⟩ := h address o ho
    exact ⟨o', ho', hid⟩
  | null | number | boolean | string => exact hv

namespace HasType

theorem null : Value.null.HasType t objects τ := .inl rfl

theorem keeps (h : v.HasType t objects τ) (hk : Keeps objects objects') : v.HasType t objects' τ := by
  rcases h with rfl | ⟨id, c, hv, hc, hsub⟩
  · exact null
  · exact .inr ⟨id, c, classId_keeps hk hv, hc, hsub⟩

theorem assign (ht : t.Rooted) (h : v.HasType t objects σ) (hστ : t.isAssignable σ τ = true) :
    v.HasType t objects τ := by
  rcases h with rfl | ⟨id, c, hv, hc, hsub⟩
  · exact null
  · refine .inr ⟨id, τ.class?.getD 0, hv, ?_, ?_⟩
    all_goals
      cases σ <;> cases τ <;> simp only [ClassTable.isAssignable, Bool.false_eq_true] at hστ
    all_goals cases hc
    all_goals first | rfl | exact ClassTable.isSubclass_trans ht hsub hστ

theorem of_class {id c : Nat} (hv : v.classId? objects = some id) (hτ : τ.class? = some c)
    (hsub : t.isSubclass id c = true) : v.HasType t objects τ := .inr ⟨id, c, hv, hτ, hsub⟩

end HasType

end Value

section

variable {a : Analysis} (W : WellTyped a)

include W

/-- Only a class that others may inherit from has other subclasses. -/
theorem WellTyped.eq_of_subclass {id c : Nat} (h : a.classes.isSubclass id c = true)
    (hc : ¬ a.classes.Inheritable c) : id = c := by
  by_cases hid : id < a.classes.size
  · induction id, hid using W.rooted.induct with
    | root id hid hn => exact ((ClassTable.isSubclass_root hid hn).mp h).symm
    | link id p hid hplt hp ih =>
      rcases (ClassTable.isSubclass_link W.rooted hp).mp h with rfl | h
      · rfl
      · exact absurd (ih h ▸ W.parent_inheritable hp) hc
  · exact (ClassTable.eq_of_isSubclass_of_le (Nat.le_of_not_lt hid) h).symm

end

/-- Every object is of a class that has instances. -/
def Populated (t : ClassTable) (objects : List Instance) : Prop :=
  ∀ (i : Nat) o, objects[i]? = some o → t.Inheritable o.classId

namespace Populated

variable {a : Analysis} (W : WellTyped a) {objects : List Instance} {v : Value}

include W

/-- The class of a value is no unit type and has an index. -/
theorem classId_lt (P : Populated a.classes objects) {id : Nat} (hv : v.classId? objects = some id) :
    id < a.classes.size ∧ id ≠ TypeId.unit := by
  have hfirst := W.first_le
  cases v with
  | null => cases hv
  | object address =>
    simp only [Value.classId?, Option.map_eq_some_iff] at hv
    obtain ⟨o, ho, rfl⟩ := hv
    exact ⟨W.inheritable_lt (P address o ho), (P address o ho).ne_unit⟩
  | number | boolean | string =>
    cases hv
    exact ⟨Nat.lt_of_lt_of_le (by decide) hfirst, by decide⟩

/-- A value of a class that nothing inherits from is null or a value of that very class, and no
object. -/
theorem sealed_cases (P : Populated a.classes objects) {c : Nat} (hc : ¬ a.classes.Inheritable c)
    (hv : v.HasType a.classes objects (.plain c)) :
    v = .null ∨ v.classId? objects = some c ∧ ∀ address, v ≠ .object address := by
  rcases hv with rfl | ⟨id, c', hv, hc', hsub⟩
  · exact .inl rfl
  · cases hc'
    obtain rfl := W.eq_of_subclass hsub hc
    refine .inr ⟨hv, ?_⟩
    rintro address rfl
    simp only [Value.classId?, Option.map_eq_some_iff] at hv
    obtain ⟨o, ho, rfl⟩ := hv
    exact hc (P address o ho)

theorem number_cases (P : Populated a.classes objects) (hv : v.HasType a.classes objects .number) :
    v = .null ∨ ∃ x, v = .number x := by
  have hc : ¬ a.classes.Inheritable TypeId.number := by
    rintro (h | h | ⟨h, _⟩) <;> revert h <;> decide
  rcases P.sealed_cases W hc hv with rfl | ⟨hid, hobj⟩
  · exact .inl rfl
  · cases v with
    | number x => exact .inr ⟨x, rfl⟩
    | object address => exact absurd rfl (hobj address)
    | null | boolean | string => cases hid

theorem boolean_cases (P : Populated a.classes objects) (hv : v.HasType a.classes objects .boolean) :
    v = .null ∨ ∃ b, v = .boolean b := by
  have hc : ¬ a.classes.Inheritable TypeId.boolean := by
    rintro (h | h | ⟨h, _⟩) <;> revert h <;> decide
  rcases P.sealed_cases W hc hv with rfl | ⟨hid, hobj⟩
  · exact .inl rfl
  · cases v with
    | boolean b => exact .inr ⟨b, rfl⟩
    | object address => exact absurd rfl (hobj address)
    | null | number | string => cases hid

theorem string_cases (P : Populated a.classes objects) (hv : v.HasType a.classes objects .string) :
    v = .null ∨ ∃ s, v = .string s := by
  have hc : ¬ a.classes.Inheritable TypeId.string := by
    rintro (h | h | ⟨h, _⟩) <;> revert h <;> decide
  rcases P.sealed_cases W hc hv with rfl | ⟨hid, hobj⟩
  · exact .inl rfl
  · cases v with
    | string s => exact .inr ⟨s, rfl⟩
    | object address => exact absurd rfl (hobj address)
    | null | number | boolean => cases hid

/-- The unit type has no value but null. -/
theorem unit_null (P : Populated a.classes objects) (hv : v.HasType a.classes objects .unit) :
    v = .null := by
  have hc : ¬ a.classes.Inheritable TypeId.unit := fun h => h.ne_unit rfl
  rcases P.sealed_cases W hc hv with rfl | ⟨hid, _⟩
  · rfl
  · exact absurd rfl (P.classId_lt W hid).2

end Populated

namespace HeapRel

variable {a : Analysis} {image : Image} (W : WellTyped a) (A : Assembled a image)
  {objects : List Instance} {h : Heap} {v w : Value}

/-- An address is on both sides or on neither. -/
theorem get_none (H : HeapRel a.classes objects h) {address : Nat} (ho : objects[address]? = none) :
    h.get? address = none := by
  rw [List.getElem?_eq_none_iff] at ho
  exact Array.getElem?_eq_none (H.size ▸ ho)

theorem construct_eq (H : HeapRel a.classes objects h) (v : Value) :
    h.construct? v = (v.classId? objects).map TypeId.index := by
  cases v with
  | null | number | boolean | string => rfl
  | object address =>
    simp only [Heap.construct?, Value.classId?]
    cases ho : objects[address]? with
    | none => simp [H.get_none ho]
    | some o =>
      obtain ⟨obj, hobj, hrel⟩ := H.each address o ho
      simp [hobj, hrel.construct]

theorem populated (H : HeapRel a.classes objects h) : Populated a.classes objects := fun i o ho => by
  obtain ⟨_, _, hrel⟩ := H.each i o ho
  exact hrel.inheritable

include W

theorem classId_lt (H : HeapRel a.classes objects h) {id : Nat} (hv : v.classId? objects = some id) :
    id < a.classes.size ∧ id ≠ TypeId.unit :=
  H.populated.classId_lt W hv

theorem number_cases (H : HeapRel a.classes objects h) (hv : v.HasType a.classes objects .number) :
    v = .null ∨ ∃ x, v = .number x :=
  H.populated.number_cases W hv

theorem boolean_cases (H : HeapRel a.classes objects h) (hv : v.HasType a.classes objects .boolean) :
    v = .null ∨ ∃ b, v = .boolean b :=
  H.populated.boolean_cases W hv

theorem string_cases (H : HeapRel a.classes objects h) (hv : v.HasType a.classes objects .string) :
    v = .null ∨ ∃ s, v = .string s :=
  H.populated.string_cases W hv

theorem unit_null (H : HeapRel a.classes objects h) (hv : v.HasType a.classes objects .unit) :
    v = .null :=
  H.populated.unit_null W hv

include A

/-- The machine and the tree test types alike. -/
theorem isInstance_eq (H : HeapRel a.classes objects h) {τ : Ty} {c k : Nat} (hτ : τ.class? = some c)
    (hk : TypeId.construct? c = some k) :
    h.isInstance image v k τ.isNullable = v.isOf a.classes objects τ := by
  obtain ⟨hne, rfl⟩ := TypeId.ne_unit_of_construct hk
  rw [Heap.isInstance, H.construct_eq, Value.isOf]
  cases hv : v.classId? objects with
  | none => rfl
  | some id =>
    obtain ⟨hlt, hid⟩ := H.classId_lt W hv
    simp only [Option.map_some, hτ, Option.any_some]
    exact isInstance_index W A hlt hid hne

theorem text_eq (H : HeapRel a.classes objects h) (v : Value) :
    h.text image v = v.display a.classes objects := by
  cases v with
  | null | number | boolean | string => rfl
  | object address =>
    simp only [Heap.text, Value.display]
    cases ho : objects[address]? with
    | none => simp [H.get_none ho]
    | some o =>
      obtain ⟨obj, hobj, hrel⟩ := H.each address o ho
      obtain ⟨c, hc, hname, _⟩ := construct_of_class W A (W.inheritable_lt hrel.inheritable)
        hrel.inheritable.ne_unit
      simp [hobj, hrel.construct, hc, hname]

/-- The name of a type is the one that the machine gives it. -/
theorem typeName_eq {τ : Ty} {c k : Nat} (hτ : τ.class? = some c)
    (hk : TypeId.construct? c = some k) (hc : c < a.classes.size) :
    image.constructName k ++ Instr.nullMark τ.isNullable = a.classes.text τ := by
  obtain ⟨hne, rfl⟩ := TypeId.ne_unit_of_construct hk
  obtain ⟨con, hcon, hname, _⟩ := construct_of_class W A hc hne
  have hcn : image.constructName (TypeId.index c) = a.classes.name c := by
    simp [Image.constructName, hcon, hname]
  rw [hcn]
  cases τ with
  | null => cases hτ
  | plain id =>
    cases hτ
    simp [Instr.nullMark, Ty.isNullable, ClassTable.text]
  | option id =>
    cases hτ
    simp [Instr.nullMark, Ty.isNullable, ClassTable.text, toString]

end HeapRel

/-! ## Fields -/

namespace CorrespondenceLemmas

/-- The only field of a built-in class is the length of a string. -/
theorem builtin_field {owner : Nat} (howner : owner < TypeId.first) {r : ClassRecord} {f : Field}
    (hr : ClassTable.standard.record? owner = some r) (hf : f ∈ r.fields) :
    owner = TypeId.string ∧ f.offset = 0 ∧ f.type = .number := by
  have hall : ∀ owner < 6, ∀ r ∈ ClassTable.standard.record? owner, ∀ f ∈ r.fields,
      owner = TypeId.string ∧ f.offset = 0 ∧ f.type = .number := by decide +kernel
  exact hall owner howner r hr f hf

theorem builtin_isBuiltin {owner : Nat} (howner : owner < TypeId.first) {r : ClassRecord}
    (hr : ClassTable.standard.record? owner = some r) : r.isBuiltin = true := by
  have hall : ∀ owner < 6, ∀ r ∈ ClassTable.standard.record? owner, r.isBuiltin = true := by
    decide +kernel
  exact hall owner howner r hr

end CorrespondenceLemmas

open CorrespondenceLemmas

section

variable {a : Analysis} {image : Image} (W : WellTyped a) {objects objects' : List Instance} {h : Heap}
  {v w : Value}

include W

/-- A built-in class inherits from itself and from the root. -/
theorem WellTyped.builtin_subclass {id u : Nat} (hid : id < TypeId.first)
    (h : a.classes.isSubclass id u = true) : u = id ∨ u = TypeId.any := by
  have hlt : id < a.classes.size := Nat.lt_of_lt_of_le hid W.first_le
  obtain ⟨r, hr, hany, _⟩ := Hierarchy.HierarchyLemmas.standard_record id hid
  have hparent := ClassTable.parent_of_record ((W.builtin id hid).trans hr)
  cases hp : a.classes.parent? id with
  | none => exact .inl ((ClassTable.isSubclass_root hlt hp).mp h)
  | some p =>
    rcases (ClassTable.isSubclass_link W.rooted hp).mp h with rfl | h
    · exact .inl rfl
    · obtain rfl := hany p (hparent.symm.trans hp)
      obtain ⟨r', hr', _, _, hroot⟩ :=
        Hierarchy.HierarchyLemmas.standard_record TypeId.any (by decide)
      have hn := ClassTable.parent_of_record ((W.builtin _ (by decide)).trans hr')
      rw [hroot rfl] at hn
      exact .inr ((ClassTable.isSubclass_root (Nat.lt_of_lt_of_le (by decide) W.first_le) hn).mp h)

/-- Among the built-in values only strings have a field. -/
theorem WellTyped.builtin_fields {id owner : Nat} {r : ClassRecord} {f : Field}
    (hid : id < TypeId.first) (hsub : a.classes.isSubclass id owner = true)
    (hr : a.classes.record? owner = some r) (hf : f ∈ r.fields) :
    id = TypeId.string ∧ f.offset = 0 ∧ f.type = .number := by
  have howner : owner < TypeId.first := by
    rcases W.builtin_subclass hid hsub with rfl | rfl
    · exact hid
    · decide
  obtain ⟨hstr, hoff, htype⟩ := builtin_field howner ((W.builtin owner howner).symm.trans hr) hf
  rcases W.builtin_subclass hid hsub with rfl | rfl
  · exact ⟨hstr, hoff, htype⟩
  · exact absurd hstr (by decide)

/-- Two fields of a class with the same name are the same. -/
theorem WellTyped.field_unique {owner : Nat} {r : ClassRecord} {f g : Field}
    (hr : a.classes.record? owner = some r) (hf : f ∈ r.fields) (hg : g ∈ r.fields)
    (hname : f.name = g.name) (hb : r.isBuiltin = false) : f = g := by
  have hid := ClassTable.lt_of_record hr
  have hu : ¬ owner < TypeId.first := fun hlt => by
    rw [W.builtin owner hlt] at hr
    rw [builtin_isBuiltin hlt hr] at hb
    cases hb
  obtain ⟨i, d, p, r', rfl, _, hc⟩ := W.user_class hid hu
  rw [hc.record] at hr
  cases hr
  exact List.inj_on_of_nodup_map hc.registered.fieldsNodup hf hg hname

omit W in
theorem ObjectRel.keeps {t : ClassTable} {o : Instance} {obj : Object} (h : ObjectRel t objects o obj)
    (hk : Keeps objects objects') : ObjectRel t objects' o obj :=
  ⟨h.inheritable, h.construct, h.size, fun owner ho r hr f hf =>
    ⟨(h.fields owner ho r hr f hf).1, (h.fields owner ho r hr f hf).2.keeps hk⟩⟩

/-- A new object corresponds to a blank one of its construct. -/
theorem HeapRel.allocate (H : HeapRel a.classes objects h) {id count : Nat}
    (hid : a.classes.Inheritable id) (hcount : count = a.classes.fieldCount id) :
    HeapRel a.classes (objects ++ [⟨id, fun _ _ => .null⟩]) (h.allocate (TypeId.index id) count).2 := by
  have hk : Keeps objects (objects ++ [⟨id, fun _ _ => .null⟩]) := .append _
  refine ⟨by simp [Heap.allocate, H.size], fun i o ho => ?_⟩
  rw [List.getElem?_append] at ho
  split at ho
  · next hi =>
    obtain ⟨obj, hobj, hrel⟩ := H.each i o ho
    refine ⟨obj, ?_, hrel.keeps hk⟩
    have hlt : i < h.objects.size := H.size ▸ hi
    simpa [Heap.get?, Heap.allocate, Array.getElem?_push_lt hlt, Array.getElem?_eq_getElem hlt]
      using hobj
  · next hi =>
    have hi' : i = objects.length := by
      have := (List.getElem?_eq_some_iff.mp ho).1
      simp only [List.length_singleton] at this
      omega
    subst hi'
    simp only [Nat.sub_self, List.getElem?_cons_zero, Option.some.injEq] at ho
    subst ho
    refine ⟨.blank (TypeId.index id) count, ?_, hid, rfl, by simp [Object.blank, hcount], ?_⟩
    · simp [Heap.get?, Heap.allocate, ← H.size]
    · intro owner howner r hr f hf
      have hlt := ClassTable.offset_lt W.rooted W.placed (W.inheritable_lt hid) howner hr hf
      exact ⟨by simp [Object.blank, hcount, hlt], .null⟩

/-- Reading a field: null has none, and otherwise machine and tree read the same value. -/
theorem HeapRel.field_read (H : HeapRel a.classes objects h) {id owner : Nat} {x : String} {f : Field}
    (hv : v.HasType a.classes objects (.plain id))
    (hf : a.classes.lookupField? id x = some (owner, f)) :
    v = .null ∨ ∃ w, h.field v f.offset = .ok w ∧ w.HasType a.classes objects f.type ∧
      ∀ s : EvalState, s.objects = objects → Evaluate.readField owner f v s = (.ok w, s) := by
  obtain ⟨hanc, r, hr, hfound⟩ := ClassTable.lookupField_some hf
  have hmem : f ∈ r.fields := List.mem_of_find?_eq_some hfound
  rcases hv with rfl | ⟨k, c, hk, hc, hsub⟩
  · exact .inl rfl
  cases hc
  have hown : a.classes.isSubclass k owner = true :=
    ClassTable.isSubclass_trans W.rooted hsub (ClassTable.isSubclass_iff.mpr hanc)
  right
  have hbuiltin (hlt : k < TypeId.first) := W.builtin_fields hlt hown hr hmem
  cases v with
  | object address =>
    simp only [Value.classId?, Option.map_eq_some_iff] at hk
    obtain ⟨o, ho, rfl⟩ := hk
    obtain ⟨obj, hobj, hrel⟩ := H.each address o ho
    obtain ⟨hget, htyped⟩ := hrel.fields owner (ClassTable.isSubclass_iff.mp hown) r hr f hmem
    refine ⟨o.fields owner f.name, ?_, htyped, ?_⟩
    · simp [Heap.field, hobj, Object.field, hget]
    · rintro s rfl
      simp [Evaluate.readField, Eval.state, bind, ho, pure]
  | string str =>
    cases hk
    obtain ⟨_, hoff, htype⟩ := hbuiltin (by decide)
    refine ⟨.number (Float.ofNat str.length), by simp [Heap.field, hoff], ?_, fun _ _ => rfl⟩
    rw [htype]
    exact .of_class rfl rfl (ClassTable.isSubclass_refl (Nat.lt_of_lt_of_le (by decide) W.first_le))
  | null => cases hk
  | number x =>
    cases hk
    exact absurd (hbuiltin (by decide)).1 (by decide)
  | boolean b =>
    cases hk
    exact absurd (hbuiltin (by decide)).1 (by decide)

/-- Writing a field of a declared class: null has none, and otherwise machine and tree change the same
field. -/
theorem HeapRel.field_write (H : HeapRel a.classes objects h) {id owner : Nat} {x : String} {f : Field}
    (hv : v.HasType a.classes objects (.plain id))
    (hf : a.classes.lookupField? id x = some (owner, f)) (hb : a.classes.isBuiltin owner = false)
    (hw : w.HasType a.classes objects f.type) :
    v = .null ∨ ∃ address h', v = .object address ∧ h.setField v f.offset w = .ok h' ∧
      HeapRel a.classes (objects.modify address (·.set owner f.name w)) h' := by
  obtain ⟨hanc, r, hr, hfound⟩ := ClassTable.lookupField_some hf
  have hmem : f ∈ r.fields := List.mem_of_find?_eq_some hfound
  have hrb : r.isBuiltin = false := by simpa [ClassTable.isBuiltin, hr] using hb
  rcases hv with rfl | ⟨k, c, hk, hc, hsub⟩
  · exact .inl rfl
  cases hc
  have hown : a.classes.isSubclass k owner = true :=
    ClassTable.isSubclass_trans W.rooted hsub (ClassTable.isSubclass_iff.mpr hanc)
  right
  have huser : ¬ k < TypeId.first := by
    intro hlt
    have howner : owner < TypeId.first := by
      rcases W.builtin_subclass hlt hown with rfl | rfl
      · exact hlt
      · decide
    rw [builtin_isBuiltin howner ((W.builtin owner howner).symm.trans hr)] at hrb
    cases hrb
  cases v with
  | null => cases hk
  | number | boolean | string =>
    cases hk
    exact absurd (by decide) huser
  | object address =>
    simp only [Value.classId?, Option.map_eq_some_iff] at hk
    obtain ⟨o, ho, rfl⟩ := hk
    obtain ⟨obj, hobj, hrel⟩ := H.each address o ho
    have hanc' := ClassTable.isSubclass_iff.mp hown
    have hid := W.inheritable_lt hrel.inheritable
    have hlt : f.offset < obj.fields.size := by
      rw [hrel.size]
      exact ClassTable.offset_lt W.rooted W.placed hid hanc' hr hmem
    have hk : Keeps objects (objects.modify address (·.set owner f.name w)) := .modify _ _ _ _
    refine ⟨address, ⟨h.objects.setIfInBounds address
      { obj with fields := obj.fields.set f.offset w hlt }⟩, rfl, ?_, ?_⟩
    · simp [Heap.setField, hobj, Object.setField, hlt, bind, Except.bind, pure, Except.pure]
    have haddr : address < h.objects.size := (Array.getElem?_eq_some_iff.mp hobj).1
    refine ⟨by simp [H.size], fun i o' ho' => ?_⟩
    rw [List.getElem?_modify] at ho'
    by_cases hi : address = i
    · subst hi
      simp only [if_true, ho, Option.map_some, Option.map_eq_map, Option.some.injEq] at ho'
      subst ho'
      refine ⟨{ obj with fields := obj.fields.set f.offset w hlt }, by simp [Heap.get?, haddr],
        hrel.inheritable, hrel.construct, (Array.size_set hlt).trans hrel.size, fun b hbanc q hq g hg => ?_⟩
      by_cases hsame : b = owner ∧ g.name = f.name
      · obtain ⟨rfl, hname⟩ := hsame
        rw [hr] at hq
        cases hq
        obtain rfl := W.field_unique hr hg hmem hname hrb
        refine ⟨by simp [Instance.set], ?_⟩
        simpa [Instance.set] using hw.keeps hk
      · -- Another field lies in another slot.
        have hoff : f.offset ≠ g.offset := by
          intro heq
          obtain ⟨hab, hfg⟩ := ClassTable.offset_injective W.rooted W.placed hid hanc' hbanc hr hq hmem
            hg heq
          exact hsame ⟨hab.symm, hfg ▸ rfl⟩
        obtain ⟨hget, htyped⟩ := hrel.fields b hbanc q hq g hg
        refine ⟨by simpa [Array.getElem?_set, hoff, Instance.set, hsame] using hget, ?_⟩
        simpa [Instance.set, hsame] using htyped.keeps hk
    · simp only [if_neg hi, Option.map_eq_map, Option.map_id_fun', id_eq] at ho'
      obtain ⟨obj', hobj', hrel'⟩ := H.each i o' ho'
      refine ⟨obj', ?_, hrel'.keeps hk⟩
      simpa [Heap.get?, Array.getElem?_setIfInBounds, hi] using hobj'

end

/-! ## Local names -/

namespace LocalsRel

variable {t : ClassTable} {objects objects' : List Instance} {visible : List Binding}
  {locals : List (String × Value)} {this v : Value} {L : Array Value}

/-- The names and their slots, in terms of the names alone. -/
def names (visible : List Binding) : List String := visible.map (·.name)

theorem keeps (h : LocalsRel t objects visible locals this L) (hk : Keeps objects objects') :
    LocalsRel t objects' visible locals this L :=
  ⟨h.typed.imp fun _ _ hb => ⟨hb.1, hb.2.keeps hk⟩, h.slots⟩

theorem this_slot (h : LocalsRel t objects visible locals this L) : L[0]? = some this := by
  obtain ⟨spare, hL⟩ := h.slots
  rw [← Array.getElem?_toList, hL]
  rfl

theorem length_eq (h : LocalsRel t objects visible locals this L) :
    locals.length = (names visible).length := by
  rw [names, List.length_map, h.typed.length_eq]

/-- A name that the check finds has a value of its type, in the slot that lowering gives it. -/
theorem lookup (h : LocalsRel t objects visible locals this L) {x : String} {τ : Ty} {i : Nat}
    (hτ : (visible.find? (·.name == x)).map (·.type) = some τ)
    (hi : (slotsOf (names visible)).lookup x = some i) :
    ∃ v, locals.lookup x = some v ∧ v.HasType t objects τ ∧ L[i]? = some v := by
  obtain ⟨spare, hL⟩ := h.slots
  have hall : ∀ (locals : List (String × Value)) (visible : List Binding),
      List.Forall₂ (fun b β => b.1 = β.name ∧ b.2.HasType t objects β.type) locals visible →
      (visible.find? (·.name == x)).map (·.type) = some τ →
      (slotsOf (names visible)).lookup x = some i →
      ∃ v, locals.lookup x = some v ∧ v.HasType t objects τ ∧
        ∀ rest, (this :: (locals.map (·.2)).reverse ++ rest)[i]? = some v := by
    intro locals visible htyped
    induction htyped with
    | nil => intro hτ; cases hτ
    | @cons b β locals visible hb htyped ih =>
      intro hτ hi
      obtain ⟨x', v⟩ := b
      obtain ⟨rfl, hv⟩ := hb
      simp only [names, List.map_cons, slotsOf, List.lookup_cons, List.find?_cons] at hτ hi ⊢
      by_cases hx : x = β.name
      · subst hx
        simp only [beq_self_eq_true, Option.map_some, Option.some.injEq] at hτ hi ⊢
        subst hτ
        refine ⟨v, rfl, hv, fun rest => ?_⟩
        have hlen : visible.length = locals.length := htyped.length_eq.symm
        rw [← hi]
        simp [hlen]
      · have hx' : (x == β.name) = false := by simpa using hx
        have hx'' : (β.name == x) = false := by simpa using Ne.symm hx
        simp only [hx', hx''] at hτ hi ⊢
        obtain ⟨w, hw, hwt, hslot⟩ := ih hτ hi
        refine ⟨w, hw, hwt, fun rest => ?_⟩
        simpa using hslot (v :: rest)
  obtain ⟨v, hv, hvt, hslot⟩ := hall locals visible h.typed hτ hi
  exact ⟨v, hv, hvt, by rw [← Array.getElem?_toList, hL]; exact hslot spare⟩

/-- Assigning to a name. -/
theorem assign (h : LocalsRel t objects visible locals this L) {x : String} {τ : Ty} {i : Nat}
    (hτ : (visible.find? (·.name == x)).map (·.type) = some τ)
    (hi : (slotsOf (names visible)).lookup x = some i) (hv : v.HasType t objects τ) :
    ∃ hlt : i < L.size, LocalsRel t objects visible (Evaluate.rebind x v locals) this
      (L.set i v hlt) := by
  obtain ⟨spare, hL⟩ := h.slots
  have hall : ∀ (locals : List (String × Value)) (visible : List Binding),
      List.Forall₂ (fun b β => b.1 = β.name ∧ b.2.HasType t objects β.type) locals visible →
      (visible.find? (·.name == x)).map (·.type) = some τ →
      (slotsOf (names visible)).lookup x = some i →
      i ≤ locals.length ∧
      List.Forall₂ (fun b β => b.1 = β.name ∧ b.2.HasType t objects β.type)
        (Evaluate.rebind x v locals) visible ∧
      ∀ rest, (this :: (locals.map (·.2)).reverse ++ rest).set i v =
        this :: ((Evaluate.rebind x v locals).map (·.2)).reverse ++ rest := by
    intro locals visible htyped
    induction htyped with
    | nil => intro hτ; cases hτ
    | @cons b β locals visible hb htyped ih =>
      intro hτ hi
      obtain ⟨x', w⟩ := b
      obtain ⟨rfl, hw⟩ := hb
      simp only [names, List.map_cons, slotsOf, List.lookup_cons, List.find?_cons] at hτ hi
      have hlen : visible.length = locals.length := htyped.length_eq.symm
      by_cases hx : x = β.name
      · subst hx
        simp only [beq_self_eq_true, Option.map_some, Option.some.injEq, List.length_map] at hτ hi
        subst hτ hi
        refine ⟨by simp [hlen], ?_, fun rest => ?_⟩
        · simpa [Evaluate.rebind] using ⟨hv, htyped⟩
        · simp [Evaluate.rebind, hlen]
      · have hx' : (x == β.name) = false := by simpa using hx
        have hx'' : (β.name == x) = false := by simpa using Ne.symm hx
        simp only [hx', hx''] at hτ hi
        obtain ⟨hle, htyped', hset⟩ := ih hτ hi
        refine ⟨Nat.le_succ_of_le hle, ?_, fun rest => ?_⟩
        · simpa [Evaluate.rebind, Ne.symm hx] using ⟨hw, htyped'⟩
        · simpa [Evaluate.rebind, Ne.symm hx] using hset (w :: rest)
  obtain ⟨hle, htyped, hset⟩ := hall locals visible h.typed hτ hi
  have hlt : i < L.size := by
    rw [← Array.length_toList, hL]
    simp
    omega
  exact ⟨hlt, htyped, spare, by rw [Array.toList_set, hL, hset]⟩

/-- Binding a name: it gets the first spare slot. -/
theorem define (h : LocalsRel t objects visible locals this L) {x : String} {τ : Ty}
    (hv : v.HasType t objects τ) (hlt : (names visible).length + 1 < L.size) :
    LocalsRel t objects (⟨x, τ⟩ :: visible) ((x, v) :: locals) this
      (L.set ((names visible).length + 1) v hlt) := by
  obtain ⟨spare, hL⟩ := h.slots
  refine ⟨.cons ⟨rfl, hv⟩ h.typed, ?_⟩
  have hlen := h.length_eq
  match spare with
  | [] =>
    have hsize : L.size = locals.length + 1 := by rw [← Array.length_toList, hL]; simp
    omega
  | w :: spare => exact ⟨spare, by simp [Array.toList_set, hL, ← hlen]⟩

/-- Leaving a scope: what was bound in it is forgotten, and its slots are spare. -/
theorem leave {inner : List Binding}
    (h : LocalsRel t objects (inner ++ visible) locals this L) :
    LocalsRel t objects visible (locals.drop inner.length) this L := by
  obtain ⟨spare, hL⟩ := h.slots
  refine ⟨?_, ((locals.take inner.length).map (·.2)).reverse ++ spare, ?_⟩
  · have := List.forall₂_drop inner.length h.typed
    simpa using this
  · have hsplit : (locals.map (·.2)).reverse = ((locals.drop inner.length).map (·.2)).reverse ++
        ((locals.take inner.length).map (·.2)).reverse := by
      rw [← List.reverse_append, ← List.map_append, List.take_append_drop]
    rw [hL, hsplit, List.cons_append, List.cons_append, List.append_assoc]

end LocalsRel

end ClassLang
