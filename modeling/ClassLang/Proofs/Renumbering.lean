import ClassLang.Proofs.Hierarchy
import Mathlib.Logic.Equiv.Defs

/-!
# Other indices for the classes

A class is known to the checker by its index. `t.Renumbers π t'` says that `t'` is the table `t` with the
class `i` at the index `π i`. What the table answers then differs in the indices alone: a chain of
ancestors has the same classes (`ancestors_eq`), a member is found on the same class (`lookupField_eq`,
`lookupMethod_eq`), and what is shown to a reader is the same text (`text_eq`).

The renumbering is a bijection of all naturals, so that an index without a class goes to one without a
class and the equations need no side condition. Built-in classes keep their indices.
-/

namespace ClassLang

/-- The type with the classes at other indices. -/
def Ty.renumber (π : Equiv.Perm Nat) : Ty → Ty
  | .plain id => .plain (π id)
  | .option id => .option (π id)
  | .null => .null

/-- The field with the classes at other indices. -/
def Field.renumber (π : Equiv.Perm Nat) (f : Field) : Field := { f with type := f.type.renumber π }

/-- The method with the classes at other indices. -/
def Method.renumber (π : Equiv.Perm Nat) (m : Method) : Method :=
  { m with params := m.params.map (Ty.renumber π), returns := m.returns.renumber π }

/-- The class with the classes at other indices. -/
def ClassRecord.renumber (π : Equiv.Perm Nat) (r : ClassRecord) : ClassRecord :=
  { r with
    parent := r.parent.map π
    fields := r.fields.map (Field.renumber π)
    methods := r.methods.map (Method.renumber π) }

/-- A renumbering leaves the built-in classes where they are. -/
def KeepsBuiltin (π : Equiv.Perm Nat) : Prop := ∀ id < TypeId.first, π id = id

/-- The table `t'` is `t` with the classes at other indices. -/
structure ClassTable.Renumbers (π : Equiv.Perm Nat) (t t' : ClassTable) : Prop where
  builtin : KeepsBuiltin π
  size : t'.size = t.size
  find : ∀ name, t'.find? name = (t.find? name).map π
  record : ∀ id, t'.record? (π id) = (t.record? id).map (ClassRecord.renumber π)

variable {π : Equiv.Perm Nat}

/-! ## Types -/

namespace KeepsBuiltin

variable (h : KeepsBuiltin π)

include h

theorem any : π TypeId.any = TypeId.any := h _ (by decide)

theorem unit : π TypeId.unit = TypeId.unit := h _ (by decide)

theorem number_ty : Ty.number.renumber π = .number := congrArg Ty.plain (h _ (by decide))

theorem string_ty : Ty.string.renumber π = .string := congrArg Ty.plain (h _ (by decide))

theorem boolean_ty : Ty.boolean.renumber π = .boolean := congrArg Ty.plain (h _ (by decide))

theorem unit_ty : Ty.unit.renumber π = .unit := congrArg Ty.plain h.unit

theorem eq_unit {id : Nat} : π id = TypeId.unit ↔ id = TypeId.unit := by
  rw [← h.unit, π.injective.eq_iff, h.unit]

/-- Classes of programs go to classes of programs. -/
theorem first_le {id : Nat} : TypeId.first ≤ π id ↔ TypeId.first ≤ id := by
  constructor
  · intro hle
    refine Nat.le_of_not_lt fun hlt => ?_
    rw [h id hlt] at hle
    exact Nat.not_le_of_lt hlt hle
  · intro hle
    refine Nat.le_of_not_lt fun hlt => ?_
    have hsame : id = π id := π.injective (h _ hlt).symm
    rw [← hsame] at hlt
    exact Nat.not_le_of_lt hlt hle

end KeepsBuiltin

theorem Ty.renumber_injective : Function.Injective (Ty.renumber π) := by
  intro τ υ h
  cases τ <;> cases υ <;> simp_all [Ty.renumber]

theorem Ty.renumber_eq_null {τ : Ty} : τ.renumber π = .null ↔ τ = .null := by
  cases τ <;> simp [Ty.renumber]

theorem Ty.renumber_eq_boolean {τ : Ty} (h : KeepsBuiltin π) : τ.renumber π = .boolean ↔ τ = .boolean := by
  rw [← h.boolean_ty, Ty.renumber_injective.eq_iff, h.boolean_ty]

theorem Ty.renumber_eq_number {τ : Ty} (h : KeepsBuiltin π) : τ.renumber π = .number ↔ τ = .number := by
  rw [← h.number_ty, Ty.renumber_injective.eq_iff, h.number_ty]

theorem Ty.renumber_eq_unit {τ : Ty} (h : KeepsBuiltin π) : τ.renumber π = .unit ↔ τ = .unit := by
  rw [← h.unit_ty, Ty.renumber_injective.eq_iff, h.unit_ty]

@[simp] theorem Ty.isNullable_renumber (τ : Ty) : (τ.renumber π).isNullable = τ.isNullable := by
  cases τ <;> rfl

@[simp] theorem Ty.class_renumber (τ : Ty) : (τ.renumber π).class? = τ.class?.map π := by
  cases τ <;> rfl

@[simp] theorem Ty.unwrapped_renumber (τ : Ty) :
    (τ.renumber π).unwrapped? = τ.unwrapped?.map (Ty.renumber π) := by
  cases τ <;> rfl

namespace ClassRecord

theorem field_renumber (r : ClassRecord) (name : String) :
    (r.renumber π).field? name = (r.field? name).map (Field.renumber π) := by
  simp only [ClassRecord.field?, renumber, List.find?_map]
  rfl

theorem method_renumber (r : ClassRecord) (key : MemberKey) :
    (r.renumber π).method? key = (r.method? key).map (Method.renumber π) := by
  simp only [ClassRecord.method?, renumber, List.find?_map]
  rfl

theorem bind_field_renumber (r? : Option ClassRecord) (name : String) :
    (r?.map (renumber π)).bind (·.field? name) = (r?.bind (·.field? name)).map (Field.renumber π) := by
  cases r? with
  | none => rfl
  | some r => exact r.field_renumber name

theorem bind_method_renumber (r? : Option ClassRecord) (key : MemberKey) :
    (r?.map (renumber π)).bind (·.method? key) = (r?.bind (·.method? key)).map (Method.renumber π) := by
  cases r? with
  | none => rfl
  | some r => exact r.method_renumber key

theorem renumber_refl (r : ClassRecord) : r.renumber (Equiv.refl _) = r := by
  have htype : Ty.renumber (Equiv.refl _) = id := by
    funext τ
    cases τ <;> rfl
  have hfield : Field.renumber (Equiv.refl _) = id := by
    funext f
    simp [Field.renumber, htype]
  have hmethod : Method.renumber (Equiv.refl _) = id := by
    funext m
    simp [Method.renumber, htype]
  simp [renumber, hfield, hmethod]

end ClassRecord

/-- A chain of parents with the entries at other indices. -/
theorem lineage_renumber {parent? parent' : Nat → Option Nat}
    (h : ∀ i, parent' (π i) = (parent? i).map π) (bound i : Nat) :
    lineage parent' bound (π i) = (lineage parent? bound i).map π := by
  induction bound generalizing i with
  | zero => rfl
  | succ bound ih =>
    rw [lineage, lineage, h]
    cases parent? i with
    | none => rfl
    | some p => simp [ih]

theorem ClassTable.resolve_renumber {t t' : ClassTable} (h : ∀ name, t'.find? name = (t.find? name).map π)
    (name : Ident) : t'.resolve name = π <$> t.resolve name := by
  rw [resolve, resolve, h]
  cases t.find? name.name <;> rfl

theorem ClassTable.resolveType_renumber {t t' : ClassTable}
    (h : ∀ name, t'.find? name = (t.find? name).map π) (w : TypeName) :
    t'.resolveType w = Ty.renumber π <$> t.resolveType w := by
  cases w with
  | null s => rfl
  | named name | optional name s =>
    rw [resolveType, resolveType, resolve_renumber h]
    cases t.resolve name <;> rfl

namespace ClassTable.Renumbers

variable {t t' : ClassTable} (h : t.Renumbers π t')

include h

/-! ## What a table answers -/

theorem parent_eq (id : Nat) : t'.parent? (π id) = (t.parent? id).map π := by
  rw [parent?, parent?, h.record]
  cases t.record? id <;> rfl

theorem name_eq (id : Nat) : t'.name (π id) = t.name id := by
  rw [ClassTable.name, ClassTable.name, h.record]
  cases t.record? id <;> rfl

theorem isBuiltin_eq (id : Nat) : t'.isBuiltin (π id) = t.isBuiltin id := by
  rw [isBuiltin, isBuiltin, h.record]
  cases t.record? id <;> rfl

theorem text_eq (τ : Ty) : t'.text (τ.renumber π) = t.text τ := by
  cases τ with
  | plain id => exact h.name_eq id
  | option id => rw [Ty.renumber, text, text, h.name_eq]
  | null => rfl

theorem resolve_eq (name : Ident) : t'.resolve name = π <$> t.resolve name :=
  resolve_renumber h.find name

theorem resolveType_eq (w : TypeName) : t'.resolveType w = Ty.renumber π <$> t.resolveType w :=
  resolveType_renumber h.find w

theorem ancestors_eq (id : Nat) : t'.ancestors (π id) = (t.ancestors id).map π := by
  rw [ancestors, ancestors, h.size, lineage_renumber h.parent_eq]

theorem isSubclass_eq (sub sup : Nat) : t'.isSubclass (π sub) (π sup) = t.isSubclass sub sup := by
  rw [Bool.eq_iff_iff, isSubclass_iff, isSubclass_iff, h.ancestors_eq,
    List.mem_map_of_injective π.injective]

theorem isAssignable_eq (source target : Ty) :
    t'.isAssignable (source.renumber π) (target.renumber π) = t.isAssignable source target := by
  cases source <;> cases target <;> first | rfl | exact h.isSubclass_eq _ _

theorem canAccess_eq (user : Option Nat) (owner : Nat) (access : Access) :
    t'.canAccess (user.map π) (π owner) access = t.canAccess user owner access := by
  cases access with
  | everyone => rfl
  | owner =>
    cases user with
    | none => rfl
    | some user =>
      refine Bool.eq_iff_iff.mpr ?_
      simp only [canAccess, Option.map_some, beq_iff_eq, Option.some.injEq, π.injective.eq_iff]
  | family =>
    cases user with
    | none => rfl
    | some user => simp only [canAccess, Option.map_some, h.isSubclass_eq]

theorem lookupField_eq (id : Nat) (name : String) : t'.lookupField? (π id) name =
    (t.lookupField? id name).map fun found => (π found.1, found.2.renumber π) := by
  rw [lookupField?, lookupField?, h.ancestors_eq, List.findSome?_map, List.map_findSome?]
  congr 1
  funext a
  simp only [Function.comp_apply, h.record, ClassRecord.bind_field_renumber, Option.map_map]
  rfl

theorem lookupMethod_eq (id : Nat) (key : MemberKey) : t'.lookupMethod? (π id) key =
    (t.lookupMethod? id key).map fun found => (π found.1, found.2.renumber π) := by
  rw [lookupMethod?, lookupMethod?, h.ancestors_eq, List.findSome?_map, List.map_findSome?]
  congr 1
  funext a
  simp only [Function.comp_apply, h.record, ClassRecord.bind_method_renumber, Option.map_map]
  rfl

theorem constructor_eq (id : Nat) :
    t'.constructor? (π id) = (t.constructor? id).map (Method.renumber π) := by
  rw [constructor?, constructor?, h.record, ClassRecord.bind_method_renumber]

end ClassTable.Renumbers

end ClassLang
