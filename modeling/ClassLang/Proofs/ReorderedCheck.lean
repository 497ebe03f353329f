import ClassLang.Proofs.Isolation
import ClassLang.Proofs.RenumberedCheck
import ClassLang.Proofs.Reordering
import ClassLang.Proofs.WellTyped

/-!
# Checking classes in another order

The order of the classes shows in the indices alone (`Check.program_renumber`) and in the order of the
errors (`Check.errors_perm`).

Entering the members of a class reads what names stand for and the class itself (`AgreesAt.classDecl`), so
each class is entered as if it were the only one (`classList_each`). The layout goes through the classes
in their order, but what it comes to is told by the hierarchy: the fields of a class lie behind those of
its parent (`Renumbers.layout_record`).
-/

namespace ClassLang

/-! ## Entering members -/

namespace Registration

open Hierarchy.HierarchyLemmas

variable {π : Equiv.Perm Nat} {id : Nat} {t t' t'' : ClassTable}

/-- `Touches id t t'`: `t'` is `t` but for the fields and methods of the class `id`. -/
structure Touches (id : Nat) (t t' : ClassTable) : Prop where
  size : t'.size = t.size
  find : ∀ name, t'.find? name = t.find? name
  other : ∀ j, j ≠ id → t'.record? j = t.record? j
  own : ∀ r, t.record? id = some r → ∃ fields methods,
    t'.record? id = some { r with fields := fields, methods := methods }

namespace Touches

theorem refl : Touches id t t :=
  ⟨rfl, fun _ => rfl, fun _ _ => rfl, fun r hr => ⟨r.fields, r.methods, hr⟩⟩

theorem trans (h : Touches id t t') (h' : Touches id t' t'') : Touches id t t'' where
  size := h'.size.trans h.size
  find name := (h'.find name).trans (h.find name)
  other j hj := (h'.other j hj).trans (h.other j hj)
  own r hr := by
    obtain ⟨_, _, hr'⟩ := h.own r hr
    obtain ⟨fields, methods, hr''⟩ := h'.own _ hr'
    exact ⟨fields, methods, hr''⟩

theorem modify {f : ClassRecord → ClassRecord}
    (hf : ∀ r, ∃ fields methods, f r = { r with fields := fields, methods := methods }) :
    Touches id t (t.modify id f) where
  size := size_modify _ _ _
  find := find_modify _ _ _ fun r => by
    obtain ⟨_, _, hr⟩ := hf r
    rw [hr]
  other j hj := by rw [record_modify, if_neg (Ne.symm hj)]
  own r hr := by
    obtain ⟨fields, methods, hfr⟩ := hf r
    exact ⟨fields, methods, by rw [record_modify, if_pos rfl, hr, Option.map_some, hfr]⟩

end Touches

theorem addMethod_touches {m : Method} (h : t.addMethod id m = .ok t') : Touches id t t' := by
  unfold ClassTable.addMethod at h
  split at h <;> cases h
  exact .modify fun r => ⟨_, _, rfl⟩

theorem member_touches {m : MemberDecl Span} (h : member t id m = .ok t') : Touches id t t' := by
  cases m with
  | field d =>
    obtain ⟨type, _, h⟩ := bind_eq_ok.mp h
    unfold ClassTable.addField at h
    split at h <;> cases h
    exact .modify fun r => ⟨_, _, rfl⟩
  | method d =>
    obtain ⟨m, _, h⟩ := bind_eq_ok.mp h
    exact addMethod_touches h
  | constructor d =>
    obtain ⟨params, _, h⟩ := bind_eq_ok.mp h
    exact addMethod_touches h

theorem memberList_touches (ms : List (MemberDecl Span)) : Touches id t (memberList t id ms).table := by
  induction ms generalizing t with
  | nil => exact .refl
  | cons m ms ih =>
    rw [memberList]
    split
    · next h => exact (member_touches h).trans ih
    · exact ih

theorem classDecl_touches (d : ClassDecl Span) : Touches id t (classDecl t id d).2.1 := by
  simp only [classDecl]
  split
  · split
    · next h => exact (memberList_touches d.members).trans (addMethod_touches h)
    · exact memberList_touches d.members
  · exact memberList_touches d.members

/-- The tables are the same under other indices, as far as entering members of the class `id` can tell:
it reads what the names stand for and the class itself. -/
structure AgreesAt (π : Equiv.Perm Nat) (id : Nat) (t t' : ClassTable) : Prop where
  builtin : KeepsBuiltin π
  find : ∀ name, t'.find? name = (t.find? name).map π
  record : t'.record? (π id) = (t.record? id).map (ClassRecord.renumber π)

/-- The same error, or tables that agree. -/
inductive AgreeingResults (π : Equiv.Perm Nat) (id : Nat) :
    Except SemanticError ClassTable → Except SemanticError ClassTable → Prop
  | error (e : SemanticError) : AgreeingResults π id (.error e) (.error e)
  | ok {t t' : ClassTable} : AgreesAt π id t t' → AgreeingResults π id (.ok t) (.ok t')

namespace AgreesAt

variable (h : AgreesAt π id t t')

include h

theorem modify {f f' : ClassRecord → ClassRecord} (hname : ∀ r, (f r).name = r.name)
    (hname' : ∀ r, (f' r).name = r.name) (hf : ∀ r, f' (r.renumber π) = (f r).renumber π) :
    AgreesAt π id (t.modify id f) (t'.modify (π id) f') where
  builtin := h.builtin
  find name := by rw [find_modify _ _ _ hname, find_modify _ _ _ hname', h.find]
  record := by
    rw [record_modify, record_modify, if_pos rfl, if_pos rfl, h.record, Option.map_map, Option.map_map]
    exact congrArg (Option.map · _) (funext hf)

theorem addField (name : Ident) (access : Access) (type : Ty) : AgreeingResults π id
    (t.addField id name access type) (t'.addField (π id) name access (type.renumber π)) := by
  have hfield : (t'.record? (π id)).bind (·.field? name.name) =
      ((t.record? id).bind (·.field? name.name)).map (Field.renumber π) := by
    rw [h.record, ClassRecord.bind_field_renumber]
  unfold ClassTable.addField
  rw [hfield]
  cases (t.record? id).bind (·.field? name.name) with
  | some f => exact .error _
  | none =>
    refine .ok (h.modify (fun _ => rfl) (fun _ => rfl) fun r => ?_)
    simp [ClassRecord.renumber, Field.renumber]

theorem addMethod (m : Method) : AgreeingResults π id
    (t.addMethod id m) (t'.addMethod (π id) (m.renumber π)) := by
  have hmethod : (t'.record? (π id)).bind (·.method? (m.renumber π).key) =
      ((t.record? id).bind (·.method? m.key)).map (Method.renumber π) := by
    rw [h.record, ClassRecord.bind_method_renumber]
    rfl
  unfold ClassTable.addMethod
  rw [hmethod]
  cases (t.record? id).bind (·.method? m.key) with
  | some f => exact .error _
  | none =>
    refine .ok (h.modify (fun _ => rfl) (fun _ => rfl) fun r => ?_)
    simp [ClassRecord.renumber]

theorem paramTypes_eq (params : List Param) :
    paramTypes t' params = List.map (Ty.renumber π) <$> paramTypes t params := by
  simp only [paramTypes, ClassTable.resolveType_renumber h.find]
  induction params with
  | nil => rfl
  | cons p ps ih => simp only [List.mapM_cons, ih, bind_map_left, map_bind, map_pure, List.map_cons]

theorem methodOf_eq (d : MethodDecl Span) : methodOf t' d = Method.renumber π <$> methodOf t d := by
  have hreturns : returnType t' d.returns = Ty.renumber π <$> returnType t d.returns := by
    cases d.returns with
    | none => exact congrArg Except.ok h.builtin.unit_ty.symm
    | some w => exact ClassTable.resolveType_renumber h.find w
  simp only [methodOf, h.paramTypes_eq, hreturns, bind_map_left]
  cases requiredParams? d.name with
  | none => simp only [map_bind, map_pure, Method.renumber]
  | some expected =>
    dsimp only
    split
    · rfl
    · simp only [map_bind, map_pure, Method.renumber]

theorem member (m : MemberDecl Span) : AgreeingResults π id
    (Registration.member t id m) (Registration.member t' (π id) m) := by
  cases m with
  | field d =>
    simp only [Registration.member, ClassTable.resolveType_renumber h.find, bind_map_left]
    cases t.resolveType d.type with
    | error e => exact .error e
    | ok type => exact h.addField d.name d.access type
  | method d =>
    simp only [Registration.member, h.methodOf_eq, bind_map_left]
    cases methodOf t d with
    | error e => exact .error e
    | ok m => exact h.addMethod m
  | constructor d =>
    simp only [Registration.member, h.paramTypes_eq, bind_map_left]
    cases paramTypes t d.params with
    | error e => exact .error e
    | ok params =>
      have hadd := h.addMethod ⟨.constructor, d.access, params, .unit, false, d.span⟩
      rw [Method.renumber, h.builtin.unit_ty] at hadd
      exact hadd

theorem memberList (ms : List (MemberDecl Span)) :
    (Registration.memberList t' (π id) ms).members = (Registration.memberList t id ms).members ∧
    AgreesAt π id (Registration.memberList t id ms).table (Registration.memberList t' (π id) ms).table ∧
    (Registration.memberList t' (π id) ms).errors = (Registration.memberList t id ms).errors := by
  induction ms generalizing t t' with
  | nil => exact ⟨rfl, h, rfl⟩
  | cons m ms ih =>
    have hm := h.member m
    rw [Registration.memberList, Registration.memberList]
    generalize Registration.member t id m = entered at hm
    generalize Registration.member t' (π id) m = entered' at hm
    cases hm with
    | error e =>
      obtain ⟨hmembers, htable, herrors⟩ := ih h
      exact ⟨congrArg ((m, false) :: ·) hmembers, htable, congrArg (e :: ·) herrors⟩
    | ok hentered =>
      obtain ⟨hmembers, htable, herrors⟩ := ih hentered
      exact ⟨congrArg ((m, true) :: ·) hmembers, htable, herrors⟩

/-- A class is entered in the same way under other indices. -/
theorem classDecl (d : ClassDecl Span) :
    (Registration.classDecl t' (π id) d).1 = { (Registration.classDecl t id d).1 with id := π id } ∧
    AgreesAt π id (Registration.classDecl t id d).2.1 (Registration.classDecl t' (π id) d).2.1 ∧
    (Registration.classDecl t' (π id) d).2.2 = (Registration.classDecl t id d).2.2 := by
  obtain ⟨hmembers, htable, herrors⟩ := h.memberList d.members
  simp only [Registration.classDecl, hmembers, herrors]
  split
  · have hadd := htable.addMethod (implicitConstructor d)
    have himplicit : (implicitConstructor d).renumber π = implicitConstructor d := by
      simp [Method.renumber, implicitConstructor, h.builtin.unit_ty]
    rw [himplicit] at hadd
    generalize (Registration.memberList t id d.members).table.addMethod id
      (implicitConstructor d) = entered at hadd
    generalize (Registration.memberList t' (π id) d.members).table.addMethod (π id)
      (implicitConstructor d) = entered' at hadd
    cases hadd with
    | error e => exact ⟨rfl, htable, rfl⟩
    | ok hentered => exact ⟨rfl, hentered, rfl⟩
  · exact ⟨rfl, htable, rfl⟩

end AgreesAt

/-! ## Entering classes -/

/-- A class is entered as if it were the only one, whatever is entered of others. -/
theorem classDecl_alone (hfind : ∀ name, t'.find? name = t.find? name)
    (hrecord : t'.record? id = t.record? id) (d : ClassDecl Span) :
    (classDecl t' id d).1 = (classDecl t id d).1 ∧
    (classDecl t' id d).2.1.record? id = (classDecl t id d).2.1.record? id ∧
    (classDecl t' id d).2.2 = (classDecl t id d).2.2 := by
  have hsame (r? : Option ClassRecord) : r?.map (ClassRecord.renumber (Equiv.refl _)) = r? := by
    rw [funext ClassRecord.renumber_refl]
    exact Option.map_id_fun' ▸ rfl
  have hagree : AgreesAt (Equiv.refl _) id t t' :=
    ⟨fun _ _ => rfl, fun name => by rw [hfind]; exact Option.map_id_fun' ▸ rfl,
      by rw [hsame]; exact hrecord⟩
  obtain ⟨hentered, htable, herrors⟩ := hagree.classDecl d
  refine ⟨hentered.trans ?_, htable.record.trans (hsame _), herrors⟩
  have hid := classDecl_id t id d
  generalize (classDecl t id d).1 = entered at hid
  subst hid
  rfl

/-- Each class is entered as if it were the only one. -/
theorem classList_each {cs : List (TypeId × ClassDecl Span)} (h : (cs.map (·.1)).Nodup) :
    (classList t cs).1 = cs.map (fun c => (classDecl t c.1 c.2).1) ∧
    (classList t cs).2.2 = cs.flatMap (fun c => (classDecl t c.1 c.2).2.2) ∧
    (classList t cs).2.1.size = t.size ∧ (∀ name, (classList t cs).2.1.find? name = t.find? name) ∧
    (∀ id, id ∉ cs.map (·.1) → (classList t cs).2.1.record? id = t.record? id) ∧
    ∀ c ∈ cs, (classList t cs).2.1.record? c.1 = (classDecl t c.1 c.2).2.1.record? c.1 := by
  induction cs generalizing t with
  | nil => simp [classList]
  | cons c cs ih =>
    obtain ⟨id, d⟩ := c
    rw [List.map_cons, List.nodup_cons] at h
    have htouch : Touches id t (classDecl t id d).2.1 := classDecl_touches d
    have halone (c : TypeId × ClassDecl Span) (hc : c ∈ cs) :=
      @classDecl_alone c.1 t (classDecl t id d).2.1 htouch.find
        (htouch.other c.1 fun heq => h.1 (heq ▸ List.mem_map_of_mem (f := (·.1)) hc)) c.2
    obtain ⟨hentered, herrors, hsize, hfind, hother, heach⟩ := @ih (classDecl t id d).2.1 h.2
    simp only [classList]
    refine ⟨?_, ?_, hsize.trans htouch.size, fun name => (hfind name).trans (htouch.find name),
      fun j hj => ?_, fun c hc => ?_⟩
    · rw [List.map_cons, hentered, List.map_congr_left fun c hc => (halone c hc).1]
    · rw [List.flatMap_cons, herrors, List.flatMap_congr fun c hc => (halone c hc).2.2]
    · rw [List.map_cons, List.mem_cons, not_or] at hj
      exact (hother j hj.2).trans (htouch.other j hj.1)
    · rcases List.mem_cons.mp hc with rfl | hc
      · exact hother _ h.1
      · exact (heach c hc).trans (halone c hc).2.1

/-- Entering classes changes their fields and methods only. -/
theorem classList_record {cs : List (TypeId × ClassDecl Span)} (h : (cs.map (·.1)).Nodup) {id : Nat}
    {r : ClassRecord} (hr : t.record? id = some r) : ∃ fields methods,
      (classList t cs).2.1.record? id = some { r with fields := fields, methods := methods } := by
  obtain ⟨_, _, _, _, hother, heach⟩ := @classList_each t cs h
  by_cases hid : id ∈ cs.map (·.1)
  · obtain ⟨c, hc, rfl⟩ := List.mem_map.mp hid
    rw [heach c hc]
    exact (classDecl_touches c.2).own r hr
  · exact ⟨r.fields, r.methods, (hother id hid).trans hr⟩

theorem classList_rooted {cs : List (TypeId × ClassDecl Span)} (h : (cs.map (·.1)).Nodup)
    (hroot : t.Rooted) : (classList t cs).2.1.Rooted := by
  have hsize : (classList t cs).2.1.size = t.size := (classList_each h).2.2.1
  have hparent : (classList t cs).2.1.parent? = t.parent? := by
    funext id
    cases hr : t.record? id with
    | some r =>
      obtain ⟨fields, methods, hr'⟩ := classList_record h hr
      rw [ClassTable.parent_of_record hr, ClassTable.parent_of_record hr']
    | none =>
      have hlen : t.size ≤ id := List.getElem?_eq_none_iff.mp hr
      have hr' : (classList t cs).2.1.record? id = none :=
        List.getElem?_eq_none (Nat.le_trans (Nat.le_of_eq hsize) hlen)
      rw [ClassTable.parent?, ClassTable.parent?, hr, hr']
  exact ⟨by rw [hparent, hsize]; exact hroot.chain, by rw [hparent, hsize]; exact hroot.parent_lt⟩

/-- Entering classes in another order and at other indices. -/
theorem classList_renumbers (h : t.Renumbers π t') {cs cs' : List (TypeId × ClassDecl Span)}
    (hnodup : (cs.map (·.1)).Nodup) (hperm : cs'.Perm (cs.map (Hierarchy.moved π))) :
    (classList t cs).2.1.Renumbers π (classList t' cs').2.1 ∧
    (classList t' cs').1.Perm ((classList t cs).1.map fun c => { c with id := π c.id }) ∧
    (classList t' cs').2.2.Perm (classList t cs).2.2 := by
  have hids : (cs'.map (·.1)).Perm ((cs.map (·.1)).map π) := by
    simpa [Hierarchy.moved, Function.comp_def] using hperm.map (·.1)
  have hnodup' : (cs'.map (·.1)).Nodup := hids.symm.nodup (List.Nodup.map π.injective hnodup)
  have hagree (c : TypeId × ClassDecl Span) :=
    AgreesAt.classDecl ⟨h.builtin, h.find, h.record c.1⟩ c.2
  obtain ⟨hentered, herrors, hsize, hfind, hother, heach⟩ := @classList_each t cs hnodup
  obtain ⟨hentered', herrors', hsize', hfind', hother', heach'⟩ := @classList_each t' cs' hnodup'
  refine ⟨⟨h.builtin, by rw [hsize, hsize', h.size], fun name => by rw [hfind, hfind', h.find],
    fun id => ?_⟩, ?_, ?_⟩
  · by_cases hid : id ∈ cs.map (·.1)
    · obtain ⟨c, hc, rfl⟩ := List.mem_map.mp hid
      have hc' := hperm.mem_iff.mpr (List.mem_map_of_mem hc)
      exact (heach' _ hc').trans ((heach c hc).symm ▸ (hagree c).2.1.record)
    · have hid' : π id ∉ cs'.map (·.1) := by
        rw [hids.mem_iff, List.mem_map_of_injective π.injective]
        exact hid
      rw [hother' _ hid', hother id hid, h.record]
  · rw [hentered, hentered', List.map_map]
    refine (hperm.map _).trans (.of_eq ?_)
    rw [List.map_map]
    refine List.map_congr_left fun c _ => (hagree c).1.trans ?_
    rw [Function.comp_apply, classDecl_id]
  · rw [herrors, herrors']
    refine (hperm.flatMap_right _).trans (.of_eq ?_)
    rw [List.flatMap_map]
    exact List.flatMap_congr fun c _ => (hagree c).2.2

end Registration

/-! ## Layout -/

namespace ClassTable

open LayoutLemmas

variable {π : Equiv.Perm Nat} {t t' : ClassTable}

theorem lays_find (h : Lays t t') (name : String) : t'.find? name = t.find? name := by
  have hnames : t'.records.map (·.name) = t.records.map (·.name) := by
    refine List.ext_getElem? fun id => ?_
    rw [List.getElem?_map, List.getElem?_map]
    cases hr : t.record? id with
    | some r =>
      obtain ⟨fields, count, hr', _⟩ := h.each id r hr
      rw [record?] at hr hr'
      rw [hr, hr', Option.map_some, Option.map_some]
    | none =>
      have hlen : t.size ≤ id := List.getElem?_eq_none_iff.mp hr
      rw [record?] at hr
      rw [hr, List.getElem?_eq_none (Nat.le_trans (Nat.le_of_eq h.size) hlen)]
  have hmap (t : ClassTable) : t.find? name = (t.records.map (·.name)).findIdx? (· == name) := by
    rw [List.findIdx?_map]
    rfl
  rw [hmap, hmap, hnames]

/-- Fields that differ in slots are the same if the slots are in order from the same one on. -/
theorem fields_of_blank {fs fs' : List Field} {start : Nat}
    (hblank : fs'.map blankField = (fs.map (Field.renumber π)).map blankField)
    (h : ∀ (i : Nat) f, fs[i]? = some f → f.offset = start + i)
    (h' : ∀ (i : Nat) f, fs'[i]? = some f → f.offset = start + i) :
    fs' = fs.map (Field.renumber π) := by
  refine List.ext_getElem? fun i => ?_
  have hsame := congrArg (·[i]?) hblank
  simp only [List.getElem?_map] at hsame ⊢
  cases hf : fs[i]? with
  | none =>
    rw [hf] at hsame
    simpa using hsame
  | some f =>
    rw [hf] at hsame
    obtain ⟨f', hf', heq⟩ := Option.map_eq_some_iff.mp hsame
    have hoffset : f'.offset = f.offset := (h' i f' hf').trans (h i f hf).symm
    obtain ⟨name, access, type, offset, span⟩ := f'
    simp only [blankField, Field.renumber, Field.mk.injEq] at heq hoffset
    obtain ⟨rfl, rfl, rfl, _, rfl⟩ := heq
    rw [hf', hoffset]
    rfl

namespace Renumbers

variable (h : t.Renumbers π t')

include h

/-- Every entry is the entry of a class under its other index. -/
theorem exists_record {id' : Nat} {r' : ClassRecord} (hr : t'.record? id' = some r') :
    ∃ id r, id' = π id ∧ t.record? id = some r ∧ r' = r.renumber π := by
  obtain ⟨id, rfl⟩ := π.surjective id'
  rw [h.record] at hr
  obtain ⟨r, hr₁, rfl⟩ := Option.map_eq_some_iff.mp hr
  exact ⟨id, r, rfl, hr₁, rfl⟩

theorem lt_size {id : Nat} : π id < t'.size ↔ id < t.size := by
  have hsome := congrArg Option.isSome (h.record id)
  rw [Option.isSome_map, Bool.eq_iff_iff] at hsome
  simpa [record?, ClassTable.size] using hsome

theorem rooted (hroot : t.Rooted) : t'.Rooted where
  chain id' hid' := by
    obtain ⟨id, rfl⟩ := π.surjective id'
    obtain ⟨l, hl⟩ := hroot.chain id (h.lt_size.mp hid')
    exact ⟨_, hl.map π fun j _ => h.parent_eq j⟩
  parent_lt id' p' hp' := by
    obtain ⟨id, rfl⟩ := π.surjective id'
    rw [h.parent_eq] at hp'
    obtain ⟨p, hp, rfl⟩ := Option.map_eq_some_iff.mp hp'
    exact h.lt_size.mpr (hroot.parent_lt id p hp)

theorem fieldCount_eq (id : Nat) : t'.fieldCount? (π id) = t.fieldCount? id := by
  rw [fieldCount?, fieldCount?, h.record]
  cases t.record? id <;> rfl

theorem placedOnce (hplaced : t.PlacedOnce) : t'.PlacedOnce := by
  intro id' r' hr' hcount
  obtain ⟨id, r, rfl, hr, rfl⟩ := h.exists_record hr'
  obtain ⟨start, hp⟩ := hplaced id r hr hcount
  refine ⟨start, ?_, ?_, fun i f hf => ?_⟩
  · have hinherits := hp.inherits
    unfold inherited? at hinherits ⊢
    rw [ClassRecord.renumber]
    cases hparent : r.parent with
    | none => simpa [hparent] using hinherits
    | some p => simpa [hparent, h.fieldCount_eq] using hinherits
  · simpa [ClassRecord.renumber] using hp.count
  · simp only [ClassRecord.renumber, List.getElem?_map] at hf
    obtain ⟨g, hg, rfl⟩ := Option.map_eq_some_iff.mp hf
    exact hp.offsets i g hg

/-- The fields of a class get the same slots if it inherits as many. -/
theorem layout_record (hroot : t.Rooted) (hplaced : t.PlacedOnce) {id : Nat} (hid : id < t.size)
    (hparent : ∀ p, t.parent? id = some p → t'.layout.fieldCount? (π p) = t.layout.fieldCount? p) :
    t'.layout.record? (π id) = (t.layout.record? id).map (ClassRecord.renumber π) := by
  obtain ⟨hlays, _, hall⟩ := layout_placed hroot hplaced
  obtain ⟨hlays', _, hall'⟩ := layout_placed (h.rooted hroot) (h.placedOnce hplaced)
  obtain ⟨r, hr⟩ := ClassTable.exists_record hid
  obtain ⟨fs, count, hfs, hblank⟩ := hlays.each id r hr
  obtain ⟨fs', count', hfs', hblank'⟩ := hlays'.each (π id) _ (by rw [h.record, hr]; rfl)
  obtain ⟨start, hp⟩ := hall _ _ hfs
  obtain ⟨start', hp'⟩ := hall' _ _ hfs'
  have hstart : start' = start := by
    have hinherits := hp.inherits
    have hinherits' := hp'.inherits
    rw [parent_of_record hr] at hparent
    simp only [inherited?, ClassRecord.renumber] at hinherits hinherits'
    cases hr : r.parent with
    | none => simp_all
    | some p => simp_all
  subst hstart
  have hfields : fs' = fs.map (Field.renumber π) := by
    refine fields_of_blank ?_ hp.offsets hp'.offsets
    have hcomm : blankField ∘ Field.renumber π = Field.renumber π ∘ blankField := rfl
    rw [hblank', ClassRecord.renumber, List.map_map, List.map_map, hcomm, ← List.map_map, ← hblank,
      List.map_map]
  have hcount : count = some (start' + fs.length) := hp.count
  have hcount' : count' = some (start' + fs'.length) := hp'.count
  rw [hfs, hfs', hcount, hcount', hfields, List.length_map]
  rfl

/-- Fields get the same slots. -/
theorem layout (hroot : t.Rooted) (hplaced : t.PlacedOnce) : t.layout.Renumbers π t'.layout := by
  obtain ⟨hlays, _, _⟩ := layout_placed hroot hplaced
  obtain ⟨hlays', _, _⟩ := layout_placed (h.rooted hroot) (h.placedOnce hplaced)
  have hrecord (id : Nat) (hid : id < t.size) :
      t'.layout.record? (π id) = (t.layout.record? id).map (ClassRecord.renumber π) := by
    induction id, hid using hroot.induct with
    | root id hid hn => exact h.layout_record hroot hplaced hid (by simp [hn])
    | link id p hid _ hparent ih =>
      refine h.layout_record hroot hplaced hid fun q hq => ?_
      obtain rfl : p = q := Option.some.inj (hparent.symm.trans hq)
      rw [fieldCount?, fieldCount?, ih]
      cases t.layout.record? p <;> rfl
  refine ⟨h.builtin, by rw [hlays.size, hlays'.size, h.size],
    fun name => by rw [lays_find hlays, lays_find hlays', h.find], fun id => ?_⟩
  by_cases hid : id < t.size
  · exact hrecord id hid
  · have hid' : ¬ π id < t'.size := mt h.lt_size.mp hid
    rw [← hlays.size, Nat.not_lt] at hid
    rw [← hlays'.size, Nat.not_lt] at hid'
    rw [record?, record?, List.getElem?_eq_none hid, List.getElem?_eq_none hid']
    rfl

end Renumbers

end ClassTable

/-! ## The check -/

namespace Check

open Hierarchy WellTypedLemmas

/-- What is entered before the layout of classes with different names and without a cycle. -/
theorem entries_ready {p : Program Span} (hnames : (p.classes.map (·.name.name)).Nodup)
    (hacyclic : Acyclic p.classes) : (entries p).2.1.Rooted ∧ (entries p).2.1.PlacedOnce ∧
      ((build p.classes).classes.map (·.1)).Nodup := by
  obtain ⟨hsize, hstandard, huser⟩ := linked_record (fresh p.classes)
  have hacyclic' : Acyclic (fresh p.classes) := hacyclic.mono (List.filter_subset_self _)
  have hsub : ((build p.classes).classes.map (·.1)).Sublist
      ((declaredClasses (fresh p.classes)).map (·.1)) := by
    rw [build_distinct hnames hacyclic]
    exact List.filter_sublist.map _
  have hnodup := (declaredClasses_nodup _).sublist hsub
  have htable : (build p.classes).table = linkedTable (fresh p.classes) := by
    rw [build_distinct hnames hacyclic]
  obtain ⟨_, _, hsize', _, hother, _⟩ := @Registration.classList_each (build p.classes).table _ hnodup
  have hrecord := @Registration.classList_record (build p.classes).table _ hnodup
  have hroot := @Registration.classList_rooted (build p.classes).table _ hnodup
  rw [htable] at hother hrecord hroot
  refine ⟨?_, placedOnce_of_standard (fun id hid => ?_) fun id r hid hr => ?_, hnodup⟩
  · rw [entries, htable]
    exact hroot (linked_rooted hacyclic')
  · rw [entries, htable]
    refine (hother id fun hmem => ?_).trans (hstandard id hid)
    have hid' := hsub.subset hmem
    rw [declaredClasses_ids, List.mem_range'_1] at hid'
    exact Nat.not_le_of_lt hid hid'.1
  · obtain ⟨i, rfl⟩ := Nat.exists_eq_add_of_le (Nat.le_of_not_lt hid)
    have hi : i < (fresh p.classes).length := by
      have hlt := ClassTable.lt_of_record hr
      rw [entries, hsize', htable, hsize] at hlt
      omega
    obtain ⟨fields, methods, hr'⟩ := hrecord (huser i _ (List.getElem?_eq_getElem hi))
    rw [entries, htable, hr'] at hr
    cases hr
    rfl

/-- The stages before the check of the members, for classes in another order. -/
theorem entries_renumber {p q : Program Span} (hperm : p.classes.Perm q.classes)
    (hnames : (p.classes.map (·.name.name)).Nodup) (hacyclic : Acyclic p.classes) :
    ∃ σ : Equiv.Perm Nat, (∀ i, (fresh q.classes)[σ i]? = (fresh p.classes)[i]?) ∧
      (entries p).2.1.layout.Renumbers (behind TypeId.first σ) (entries q).2.1.layout ∧
      (entries q).1.Perm ((entries p).1.map fun c => { c with id := behind TypeId.first σ c.id }) ∧
      (entries q).2.2.Perm (entries p).2.2 ∧ (build q.classes).errors.Perm (build p.classes).errors := by
  obtain ⟨σ, hσ, hbuilt, hclasses, herrors⟩ := build_renumbers hperm hnames hacyclic
  obtain ⟨hroot, hplaced, hnodup⟩ := entries_ready hnames hacyclic
  obtain ⟨htable, hentered, hentries⟩ := Registration.classList_renumbers hbuilt hnodup hclasses
  exact ⟨σ, hσ, htable.layout hroot hplaced, hentered, hentries, herrors⟩

/-- The check of a program without errors. -/
theorem program_of_errors {p : Program Span} (h : errors p = []) : ∃ a, program p = .ok a := by
  cases hp : program p with
  | ok a => exact ⟨a, rfl⟩
  | error es =>
    obtain rfl : es = [] := by simpa only [errors, hp] using h
    simp only [program] at hp
    split at hp
    · cases hp
    · next hnot => exact absurd (Except.error.inj hp) hnot

/-- The table of a program without errors. -/
theorem program_table {p : Program Span} {a : Analysis} (h : program p = .ok a) :
    a.classes = (entries p).2.1.layout := by
  obtain ⟨_, entered, t, hlist, rfl, _⟩ := program_ok h
  rw [entries, hlist]

/-- Where there are no errors, no name is taken. -/
theorem program_fresh {p : Program Span} {a : Analysis} (hnames : (p.classes.map (·.name.name)).Nodup)
    (hacyclic : Acyclic p.classes) (h : program p = .ok a) : fresh p.classes = p.classes := by
  have herrors := (program_ok h).1
  rw [build_distinct hnames hacyclic] at herrors
  have htaken := List.map_eq_nil_iff.mp (List.append_eq_nil_iff.mp herrors).1
  refine List.filter_eq_self.mpr fun d hd => ?_
  simpa using List.filter_eq_nil_iff.mp htaken d hd

theorem program_getElem {p : Program Span} {a : Analysis} (h : program p = .ok a) (i : Nat) :
    a.program.classes[i]? = p.classes[i]?.map fun d => (classDecl a.classes
      ⟨TypeId.first + i, d, d.members.map (·, true), d.constructors.isEmpty⟩).1 := by
  cases hd : p.classes[i]? with
  | some d => exact program_class h hd
  | none =>
    have hlen : a.program.classes.length = p.classes.length := by simp [program_classes h]
    rw [List.getElem?_eq_none_iff] at hd
    exact List.getElem?_eq_none (Nat.le_trans (Nat.le_of_eq hlen) hd)

/-- Classes in another order have the same errors up to order. -/
theorem errors_perm {p q : Program Span} (hperm : p.classes.Perm q.classes)
    (hnames : (p.classes.map (·.name.name)).Nodup) (hacyclic : Acyclic p.classes) :
    (errors q).Perm (errors p) := by
  obtain ⟨σ, _, htable, hentered, hentries, herrors⟩ := entries_renumber hperm hnames hacyclic
  rw [errors_eq, errors_eq]
  refine (herrors.append hentries).append ((hentered.flatMap_right _).trans (.of_eq ?_))
  rw [List.flatMap_map]
  exact List.flatMap_congr fun c _ => by rw [classDecl_renumber htable]

/-- A program with its classes in another order passes the check as well, and yields the same classes and
trees under other indices. -/
theorem program_renumber {p q : Program Span} {a : Analysis} (hperm : p.classes.Perm q.classes)
    (hnames : (p.classes.map (·.name.name)).Nodup) (hacyclic : Acyclic p.classes)
    (h : program p = .ok a) : ∃ (σ : Equiv.Perm Nat) (b : Analysis), program q = .ok b ∧
      a.classes.Renumbers (behind TypeId.first σ) b.classes ∧
      ∀ i, b.program.classes[σ i]? =
        a.program.classes[i]?.map (ClassDecl.map (Typing.renumber (behind TypeId.first σ))) := by
  obtain ⟨σ, hσ, htable, _, _, _⟩ := entries_renumber hperm hnames hacyclic
  have herrors : errors q = [] := by
    have hnil : errors p = [] := by rw [errors, h]
    exact List.Perm.eq_nil (hnil ▸ errors_perm hperm hnames hacyclic)
  obtain ⟨b, hb⟩ := program_of_errors herrors
  rw [program_fresh hnames hacyclic h, program_fresh ((hperm.map _).nodup hnames)
    (hacyclic.mono hperm.symm.subset) hb] at hσ
  rw [← program_table h, ← program_table hb] at htable
  refine ⟨σ, b, hb, htable, fun i => ?_⟩
  rw [program_getElem h, program_getElem hb, hσ, Option.map_map]
  refine Option.map_congr fun d _ => ?_
  rw [Function.comp_apply, ← behind_add]
  exact congrArg Prod.fst (classDecl_renumber htable
    ⟨TypeId.first + i, d, d.members.map (·, true), d.constructors.isEmpty⟩)

end Check

end ClassLang
