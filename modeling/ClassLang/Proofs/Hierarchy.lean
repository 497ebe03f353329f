import ClassLang.Proofs.Chain
import ClassLang.Typing.Hierarchy

/-!
# Hierarchies without errors

A program whose hierarchy is built without an error declares each of its classes: they get the indices
behind the built-in ones in the order of the text (`build_ok`). Every class has a parent that can be
inherited from, and every parent chain ends.

The search for cycles is right for this reason: a climb that closes no cycle either ends at the root or
meets a class whose chain is known to end, and the bound on its length is larger than any path without
repetition.
-/

namespace ClassLang

/-- The index of the first class of a program. -/
def TypeId.first : Nat := TypeId.unit + 1

/-- A class that others may inherit from: the root, the console or a class of the program. -/
def ClassTable.Inheritable (t : ClassTable) (p : Nat) : Prop :=
  p = TypeId.any ∨ p = TypeId.console ∨ TypeId.first ≤ p ∧ p < t.size

theorem ClassTable.Inheritable.ne_unit {t : ClassTable} {id : Nat} (h : t.Inheritable id) :
    id ≠ TypeId.unit := by
  rcases h with rfl | rfl | ⟨h, _⟩
  · decide
  · decide
  · rintro rfl
    exact Nat.not_succ_le_self _ h

namespace ClassTable

variable {t t' : ClassTable} {id : TypeId} {x : Ident}

theorem declare_ok (h : t.declare x = .ok (id, t')) : t.find? x.name = none ∧ id = t.size ∧
    t' = ⟨t.records ++ [.empty x.name x.span]⟩ := by
  unfold declare at h
  split at h <;> cases h
  exact ⟨‹_›, rfl, rfl⟩

theorem declare_error {e : SemanticError} (h : t.declare x = .error e) :
    e = ⟨.duplicateDeclaration x.name, x.span⟩ := by
  unfold declare at h
  split at h <;> cases h
  rfl

end ClassTable

namespace Hierarchy

/-! ## Tables -/

namespace HierarchyLemmas

theorem record_modify (t : ClassTable) (id j : Nat) (f : ClassRecord → ClassRecord) :
    (t.modify id f).record? j = if id = j then (t.record? j).map f else t.record? j := by
  simp only [ClassTable.modify, ClassTable.record?, List.getElem?_modify]
  split <;> simp

theorem size_modify (t : ClassTable) (id : Nat) (f : ClassRecord → ClassRecord) :
    (t.modify id f).size = t.size := by
  simp [ClassTable.modify, ClassTable.size]

theorem find_modify (t : ClassTable) (id : Nat) (f : ClassRecord → ClassRecord)
    (hf : ∀ r, (f r).name = r.name) (name : String) : (t.modify id f).find? name = t.find? name := by
  have hmap : ∀ (rs : List ClassRecord) (i : Nat),
      (rs.modify i f).findIdx? (·.name == name) = rs.findIdx? (·.name == name) := by
    intro rs
    induction rs with
    | nil => simp
    | cons r rs ih =>
      intro i
      cases i with
      | zero => simp [List.findIdx?_cons, hf]
      | succ i => simp [List.findIdx?_cons, ih i]
  exact hmap t.records id

end HierarchyLemmas

open HierarchyLemmas

/-! ## Declaring -/

theorem declareAll_ok {t : ClassTable} {ds : List (ClassDecl Span)}
    (h : (declareAll t ds).errors = []) :
    (declareAll t ds).classes = (List.range' t.size ds.length).zip ds ∧
    (declareAll t ds).table.records =
      t.records ++ ds.map fun d => ClassRecord.empty d.name.name d.name.span := by
  induction ds generalizing t with
  | nil => simp [declareAll]
  | cons d ds ih =>
    cases hd : t.declare d.name with
    | error e => simp [declareAll, hd] at h
    | ok found =>
      obtain ⟨id, t'⟩ := found
      simp only [declareAll, hd] at h ⊢
      obtain ⟨hclasses, hrecords⟩ := ih h
      obtain ⟨_, rfl, rfl⟩ := ClassTable.declare_ok hd
      refine ⟨?_, by simp [hrecords]⟩
      have hsize : ClassTable.size ⟨t.records ++ [ClassRecord.empty d.name.name d.name.span]⟩ =
          t.size + 1 := by simp [ClassTable.size]
      rw [hclasses, hsize, List.length_cons, List.range'_succ, List.zip_cons_cons]

/-- The declared names are all different. -/
theorem declareAll_names {t : ClassTable} {ds : List (ClassDecl Span)}
    (h : (declareAll t ds).errors = []) (ht : (t.records.map (·.name)).Nodup) :
    ((declareAll t ds).table.records.map (·.name)).Nodup := by
  induction ds generalizing t with
  | nil => exact ht
  | cons d ds ih =>
    cases hd : t.declare d.name with
    | error e => simp [declareAll, hd] at h
    | ok found =>
      obtain ⟨id, t'⟩ := found
      simp only [declareAll, hd] at h ⊢
      obtain ⟨hnone, _, rfl⟩ := ClassTable.declare_ok hd
      refine ih h ?_
      simpa [ClassRecord.empty, List.nodup_append, ht, ClassTable.find?] using hnone

/-- Where all names are different, a class is found where it is. -/
theorem find_iff {t : ClassTable} (h : (t.records.map (·.name)).Nodup) {name : String} {id : Nat} :
    t.find? name = some id ↔ ∃ r, t.record? id = some r ∧ r.name = name := by
  constructor
  · intro hfind
    obtain ⟨hlt, hname, _⟩ := List.findIdx?_eq_some_iff_getElem.mp hfind
    exact ⟨_, List.getElem?_eq_getElem hlt, by simpa using hname⟩
  · rintro ⟨r, hr, rfl⟩
    obtain ⟨hlt, rfl⟩ := List.getElem?_eq_some_iff.mp hr
    refine List.findIdx?_eq_some_iff_getElem.mpr ⟨hlt, beq_self_eq_true _, fun j hj => ?_⟩
    have hne := List.pairwise_iff_getElem.mp (List.pairwise_map.mp h) j _ (Nat.lt_trans hj hlt) hlt hj
    simpa using hne

/-! ## Linking -/

theorem parentOf_setParent (t : ClassTable) (id : Nat) (q : Option TypeId) (d : ClassDecl Span) :
    parentOf (t.setParent id q) d = parentOf t d := by
  have hfind : ∀ name, (t.setParent id q).find? name = t.find? name :=
    find_modify t id _ fun _ => rfl
  have hrec : ∀ j, ((t.setParent id q).record? j).map (fun r => (r.isSealed, r.name)) =
      (t.record? j).map (fun r => (r.isSealed, r.name)) := by
    intro j
    rw [ClassTable.setParent, record_modify]
    split <;> simp [Function.comp_def]
  have hsealed : ∀ j, ((t.setParent id q).record? j).any (·.isSealed) =
      (t.record? j).any (·.isSealed) := by
    intro j
    have := hrec j
    cases h : (t.setParent id q).record? j <;> cases h' : t.record? j <;> simp_all
  have hname : ∀ j, (t.setParent id q).name j = t.name j := by
    intro j
    have := hrec j
    unfold ClassTable.name
    cases h : (t.setParent id q).record? j <;> cases h' : t.record? j <;> simp_all
  simp only [parentOf, ClassTable.resolve, hfind, hsealed, hname]

/-- A parent that a class may name is there and is not sealed. -/
theorem parentOf_ok {t : ClassTable} {d : ClassDecl Span} {p : TypeId}
    (h : parentOf t d = .ok p) :
    p = TypeId.any ∨ ∃ r, t.record? p = some r ∧ r.isSealed = false := by
  unfold parentOf at h
  cases hd : d.parent with
  | none => simp only [hd, Except.ok.injEq] at h; exact .inl h.symm
  | some name =>
    simp only [hd, ClassTable.resolve] at h
    cases hf : t.find? name.name with
    | none => simp [hf, bind, Except.bind] at h
    | some id =>
      simp only [hf, bind, Except.bind] at h
      split at h
      · cases h
      · next hs =>
        cases h
        have hlt : p < t.records.length := by
          obtain ⟨hlt, _⟩ := List.findIdx?_eq_some_iff_getElem.mp hf
          exact hlt
        refine .inr ⟨t.records[p], List.getElem?_eq_getElem hlt, ?_⟩
        simpa [ClassTable.record?, List.getElem?_eq_getElem hlt] using hs

/-- The parent that a class is linked to. -/
def linkOf (t : ClassTable) (d : ClassDecl Span) : TypeId :=
  match parentOf t d with
  | .ok parent => parent
  | .error _ => TypeId.any

/-- The error of a class with a bad parent. -/
def badLink? (t : ClassTable) (c : TypeId × ClassDecl Span) : Option (TypeId × SemanticError) :=
  match parentOf t c.2 with
  | .ok _ => none
  | .error e => some (c.1, e)

theorem linkAll_cons (t : ClassTable) (c : TypeId × ClassDecl Span) (cs : List (TypeId × ClassDecl Span)) :
    linkAll t (c :: cs) = ((linkAll (t.setParent c.1 (some (linkOf t c.2))) cs).1,
      (badLink? t c).toList ++ (linkAll (t.setParent c.1 (some (linkOf t c.2))) cs).2) := by
  obtain ⟨id, d⟩ := c
  cases hp : parentOf t d <;> simp [linkAll, linkOf, badLink?, hp]

/-- Each class is linked as if it were the only one. -/
theorem linkAll_each {t : ClassTable} {cs : List (TypeId × ClassDecl Span)} (h : (cs.map (·.1)).Nodup) :
    (linkAll t cs).1.size = t.size ∧ (∀ name, (linkAll t cs).1.find? name = t.find? name) ∧
    (∀ id, id ∉ cs.map (·.1) → (linkAll t cs).1.record? id = t.record? id) ∧
    (∀ c ∈ cs, (linkAll t cs).1.record? c.1 =
      (t.record? c.1).map ({ · with parent := some (linkOf t c.2) })) ∧
    (linkAll t cs).2 = cs.filterMap (badLink? t) := by
  induction cs generalizing t with
  | nil => simp [linkAll]
  | cons c cs ih =>
    rw [List.map_cons, List.nodup_cons] at h
    have hlink (d : ClassDecl Span) :
        linkOf (t.setParent c.1 (some (linkOf t c.2))) d = linkOf t d := by
      simp only [linkOf, parentOf_setParent]
    have hbad : badLink? (t.setParent c.1 (some (linkOf t c.2))) = badLink? t := by
      funext e
      simp only [badLink?, parentOf_setParent]
    obtain ⟨hsize, hfind, hother, heach, herrors⟩ := @ih (t.setParent c.1 (some (linkOf t c.2))) h.2
    rw [linkAll_cons]
    refine ⟨hsize.trans (size_modify _ _ _), fun name => ?_, fun id hid => ?_, fun e he => ?_, ?_⟩
    · rw [hfind name, ClassTable.setParent, find_modify]
      exact fun _ => rfl
    · rw [List.map_cons, List.mem_cons, not_or] at hid
      rw [hother id hid.2, ClassTable.setParent, record_modify, if_neg (Ne.symm hid.1)]
    · rcases List.mem_cons.mp he with rfl | he
      · rw [hother _ h.1, ClassTable.setParent, record_modify, if_pos rfl]
      · have hne : c.1 ≠ e.1 := fun heq => h.1 (heq ▸ List.mem_map_of_mem he)
        rw [heach e he, hlink, ClassTable.setParent, record_modify, if_neg hne]
    · rw [herrors, hbad]
      cases hc : badLink? t c <;> simp [hc]

theorem linkAll_ok {t : ClassTable} {cs : List (TypeId × ClassDecl Span)}
    (h : (linkAll t cs).2 = []) (hnd : (cs.map (·.1)).Nodup) :
    (linkAll t cs).1.size = t.size ∧
    (∀ id, id ∉ cs.map (·.1) → (linkAll t cs).1.record? id = t.record? id) ∧
    ∀ c ∈ cs, ∃ p, parentOf t c.2 = .ok p ∧
      (linkAll t cs).1.record? c.1 = (t.record? c.1).map ({ · with parent := some p }) := by
  obtain ⟨hsize, _, hother, heach, herrors⟩ := @linkAll_each t cs hnd
  refine ⟨hsize, hother, fun c hc => ?_⟩
  rw [h, eq_comm, List.filterMap_eq_nil_iff] at herrors
  have hgood := herrors c hc
  cases hp : parentOf t c.2 with
  | error e => simp [badLink?, hp] at hgood
  | ok p => exact ⟨p, rfl, by simpa [linkOf, hp] using heach c hc⟩

/-! ## Cycles -/

/-- A climb that closes no cycle ends, and so do the chains of all classes on it. -/
theorem climb_ends {t : ClassTable} {visited path path' : List Nat} {bound id : Nat}
    (hlt : ∀ j p, t.parent? j = some p → p < t.size)
    (hvisited : ∀ v ∈ visited, ∃ l, Chain t.parent? v l)
    (hid : id < t.size) (hpath : path.Nodup) (hpathlt : ∀ v ∈ path, v < t.size)
    (hbound : path.length + bound = t.size + 1)
    (h : climb t visited bound path id = (path', none)) :
    (∃ l, Chain t.parent? id l) ∧ ∀ v ∈ path', v ∈ path ∨ ∃ l, Chain t.parent? v l := by
  induction bound generalizing path id with
  | zero =>
    -- A path without repetition cannot have more classes than there are.
    have hle := length_le_of_nodup hpath hpathlt
    omega
  | succ bound ih =>
    simp only [climb] at h
    split at h
    · cases h
    · next hnotin =>
      split at h
      · next hseen =>
        cases h
        exact ⟨hvisited _ hseen, fun v hv => .inl hv⟩
      · cases hp : t.parent? id with
        | none =>
          simp only [hp, Prod.mk.injEq, and_true] at h
          subst h
          refine ⟨⟨_, .root hp⟩, fun v hv => ?_⟩
          rcases List.mem_cons.mp hv with rfl | hv
          · exact .inr ⟨_, .root hp⟩
          · exact .inl hv
        | some p =>
          simp only [hp] at h
          obtain ⟨⟨l, hl⟩, hrest⟩ := ih (hlt _ _ hp) (List.nodup_cons.mpr ⟨hnotin, hpath⟩)
            (List.forall_mem_cons.mpr ⟨hid, hpathlt⟩) (by simp; omega) h
          refine ⟨⟨_, .link hp hl⟩, fun v hv => ?_⟩
          rcases hrest v hv with hv | hv
          · rcases List.mem_cons.mp hv with rfl | hv
            · exact .inr ⟨_, .link hp hl⟩
            · exact .inl hv
          · exact .inr hv

theorem climbFrom_ok {s : CycleSearch} {start : Nat}
    (hlt : ∀ j p, s.table.parent? j = some p → p < s.table.size)
    (hvisited : ∀ v ∈ s.visited, ∃ l, Chain s.table.parent? v l) (hs : start < s.table.size)
    (h : (s.climbFrom start).errors = []) :
    (s.climbFrom start).table = s.table ∧ s.errors = [] ∧
    (∃ l, Chain s.table.parent? start l) ∧
    ∀ v ∈ (s.climbFrom start).visited, ∃ l, Chain s.table.parent? v l := by
  unfold CycleSearch.climbFrom at h ⊢
  split at h
  · next path hclimb =>
    obtain ⟨hstart, hpath⟩ := climb_ends hlt hvisited hs List.nodup_nil (by simp) (by simp) hclimb
    refine ⟨rfl, h, hstart, fun v hv => ?_⟩
    rcases List.mem_append.mp hv with hv | hv
    · exact (hpath v hv).resolve_left (by simp)
    · exact hvisited v hv
  · simp at h

/-- Errors found once are kept. -/
theorem climbs_errors {s : CycleSearch} {ids : List Nat}
    (h : (ids.foldl CycleSearch.climbFrom s).errors = []) : s.errors = [] := by
  induction ids generalizing s with
  | nil => exact h
  | cons id ids ih =>
    have hnext := ih h
    unfold CycleSearch.climbFrom at hnext
    split at hnext
    · exact hnext
    · simp at hnext

theorem climbs_ok {s : CycleSearch} {ids : List Nat}
    (hlt : ∀ j p, s.table.parent? j = some p → p < s.table.size)
    (hvisited : ∀ v ∈ s.visited, ∃ l, Chain s.table.parent? v l)
    (hids : ∀ id ∈ ids, id < s.table.size)
    (h : (ids.foldl CycleSearch.climbFrom s).errors = []) :
    (ids.foldl CycleSearch.climbFrom s).table = s.table ∧ s.errors = [] ∧
    ∀ id ∈ ids, ∃ l, Chain s.table.parent? id l := by
  induction ids generalizing s with
  | nil => exact ⟨rfl, h, by simp⟩
  | cons id ids ih =>
    simp only [List.foldl_cons] at h ⊢
    obtain ⟨hid, hids⟩ := List.forall_mem_cons.mp hids
    have hfirst := climbs_errors h
    obtain ⟨htable, herrors, hstart, hvisited'⟩ := climbFrom_ok hlt hvisited hid hfirst
    obtain ⟨htable', _, hrest⟩ := ih (by rwa [htable]) (by rwa [htable]) (by rwa [htable]) h
    rw [htable] at htable' hrest
    exact ⟨htable', herrors, List.forall_mem_cons.mpr ⟨hstart, hrest⟩⟩

theorem cutCycles_ok {t : ClassTable} {ids : List Nat}
    (hlt : ∀ j p, t.parent? j = some p → p < t.size) (hids : ∀ id ∈ ids, id < t.size)
    (h : (cutCycles t ids).2 = []) :
    (cutCycles t ids).1 = t ∧ ∀ id ∈ ids, ∃ l, Chain t.parent? id l := by
  obtain ⟨htable, _, hchains⟩ := climbs_ok (s := ⟨t, [], []⟩) hlt (by simp) hids h
  exact ⟨htable, hchains⟩

/-! ## Broken subtrees -/

/-- With no class left out at first, none is. -/
theorem leftOut_nil (t : ClassTable) (ids : List TypeId) : leftOut t [] ids = [] := by
  induction ids with
  | nil => rfl
  | cons id ids ih =>
    have hnone : leaveOut t [] id = [] := by simp [leaveOut, isLeftOut]
    rw [leftOut, List.foldl_cons, hnone]
    exact ih

theorem subset_leftOut (t : ClassTable) (out ids : List TypeId) : out ⊆ leftOut t out ids := by
  induction ids generalizing out with
  | nil => exact List.Subset.refl _
  | cons id ids ih =>
    refine List.Subset.trans ?_ (ih (leaveOut t out id))
    unfold leaveOut
    split
    · exact List.subset_cons_self id out
    · exact List.Subset.refl _

section

variable {t : ClassTable} {out : List TypeId} {id : TypeId}

theorem isLeftOut_iff : isLeftOut t out id = true ↔ ∃ a ∈ out, t.isSubclass id a = true := by
  simp only [isLeftOut, List.any_eq_true, List.contains_iff_mem, ClassTable.isSubclass_iff]
  exact exists_congr fun a => and_comm

/-- Where chains end, a class that is left out because of an ancestor leaves out what this ancestor does. -/
theorem isLeftOut_leaveOut (h : t.Rooted) (j : TypeId) :
    isLeftOut t (leaveOut t out id) j = isLeftOut t out j := by
  unfold leaveOut
  split
  · next hid =>
    obtain ⟨a, ha, hsub⟩ := isLeftOut_iff.mp hid
    rw [Bool.eq_iff_iff, isLeftOut_iff, isLeftOut_iff, List.exists_mem_cons_iff, or_iff_right_iff_imp]
    exact fun hj => ⟨a, ha, ClassTable.isSubclass_trans h hj hsub⟩
  · rfl

theorem isLeftOut_leftOut (h : t.Rooted) (ids : List TypeId) (j : TypeId) :
    isLeftOut t (leftOut t out ids) j = isLeftOut t out j := by
  induction ids generalizing out with
  | nil => rfl
  | cons id ids ih => exact (@ih (leaveOut t out id)).trans (isLeftOut_leaveOut h j)

/-- Going through the classes once, in whatever order, finds all descendants of those left out at first. -/
theorem leftOut_contains (h : t.Rooted) {ids : List TypeId} (hid : id ∈ ids) (hlt : id < t.size) :
    (leftOut t out ids).contains id = isLeftOut t out id := by
  rw [Bool.eq_iff_iff, List.contains_iff_mem]
  refine ⟨fun hmem => ?_, fun hleft => ?_⟩
  · rw [← isLeftOut_leftOut h ids]
    exact isLeftOut_iff.mpr ⟨id, hmem, ClassTable.isSubclass_refl hlt⟩
  · induction ids generalizing out with
    | nil => cases hid
    | cons j ids ih =>
      rcases List.mem_cons.mp hid with rfl | hid
      · refine subset_leftOut t (leaveOut t out id) ids ?_
        rw [leaveOut, if_pos hleft]
        exact List.mem_cons_self
      · exact ih hid ((isLeftOut_leaveOut h id).trans hleft)

end

/-! ## The whole hierarchy -/

namespace HierarchyLemmas

theorem standard_record (i : Nat) (hi : i < TypeId.first) :
    ∃ r, ClassTable.standard.record? i = some r ∧ (∀ p, r.parent = some p → p = TypeId.any) ∧
      (r.isSealed = false → i = TypeId.any ∨ i = TypeId.console) ∧
      (i = TypeId.any → r.parent = none) := by
  have hall : ∀ i < 6, ∃ r, ClassTable.standard.record? i = some r ∧
      r.parent.all (· == TypeId.any) ∧
      (r.isSealed || i == TypeId.any || i == TypeId.console) ∧
      (i != TypeId.any || r.parent.isNone) := by decide +kernel
  obtain ⟨r, hr, hp, hs, ha⟩ := hall i hi
  refine ⟨r, hr, fun p h => by simpa [h] using hp, fun h => by simpa [h] using hs, fun h => ?_⟩
  simpa [h] using ha

section

variable {t : ClassTable}
  (h : ∀ id : Nat, id < TypeId.first → t.record? id = ClassTable.standard.record? id)

include h

theorem standard_parent {id p : Nat} (hid : id < TypeId.first) (hp : t.parent? id = some p) :
    p = TypeId.any := by
  obtain ⟨r, hr, hany, _⟩ := standard_record id hid
  rw [ClassTable.parent?, h id hid, hr] at hp
  exact hany p hp

/-- The parents of built-in classes end. -/
theorem standard_chain {id : Nat} (hid : id < TypeId.first) : ∃ l, Chain t.parent? id l := by
  have hroot : Chain t.parent? TypeId.any [TypeId.any] := by
    obtain ⟨r, hr, _, _, hnone⟩ := standard_record TypeId.any (by decide)
    refine .root ?_
    rw [ClassTable.parent?, h TypeId.any (by decide), hr]
    exact hnone rfl
  cases hp : t.parent? id with
  | none => exact ⟨_, .root hp⟩
  | some p =>
    obtain rfl := standard_parent h hid hp
    exact ⟨_, .link hp hroot⟩

end

/-- The table behind the declarations: the built-in classes, then the classes of the program. -/
theorem record_declared {t : ClassTable} {cs : List (ClassDecl Span)}
    (h : t.records = ClassTable.standard.records ++
      cs.map fun d => ClassRecord.empty d.name.name d.name.span) :
    t.size = TypeId.first + cs.length ∧
    (∀ id : Nat, id < TypeId.first → t.record? id = ClassTable.standard.record? id) ∧
    ∀ (i : Nat) d, cs[i]? = some d → t.record? (TypeId.first + i) =
      some (ClassRecord.empty d.name.name d.name.span) := by
  have hlen : ClassTable.standard.records.length = TypeId.first := by decide +kernel
  refine ⟨by simp [ClassTable.size, h, hlen], fun id hid => ?_, fun i d hd => ?_⟩
  · rw [ClassTable.record?, h, List.getElem?_append_left (by rwa [hlen])]
    rfl
  · rw [ClassTable.record?, h, List.getElem?_append_right (by rw [hlen]; exact Nat.le_add_right _ _),
      hlen, Nat.add_sub_cancel_left, List.getElem?_map, hd]
    rfl

/-- Linked classes have parents that may be inherited from. -/
theorem linked_parent {t t' : ClassTable} {d : ClassDecl Span} {p : TypeId}
    (hsize : t.size = t'.size)
    (hstandard : ∀ id : Nat, id < TypeId.first → t.record? id = ClassTable.standard.record? id)
    (h : parentOf t d = .ok p) : t'.Inheritable p := by
  rcases parentOf_ok h with rfl | ⟨r, hr, hs⟩
  · exact .inl rfl
  · by_cases hp : p < TypeId.first
    · obtain ⟨r', hr', _, hopen, _⟩ := standard_record p hp
      rw [hstandard p hp, hr'] at hr
      cases hr
      rcases hopen hs with rfl | rfl
      · exact .inl rfl
      · exact .inr (.inl rfl)
    · exact .inr (.inr ⟨Nat.le_of_not_lt hp, hsize ▸ ClassTable.lt_of_record hr⟩)

theorem inheritable_lt {t : ClassTable} {p : Nat} (h : t.Inheritable p)
    (hsize : TypeId.first ≤ t.size) : p < t.size := by
  rcases h with rfl | rfl | ⟨_, h⟩
  · exact Nat.lt_of_lt_of_le (by decide) hsize
  · exact Nat.lt_of_lt_of_le (by decide) hsize
  · exact h

end HierarchyLemmas

/-- A hierarchy without errors: the classes of the text behind the built-in ones, each with a parent
that may be inherited from, and no chain without an end. -/
theorem build_ok {cs : List (ClassDecl Span)} (h : (build cs).errors = []) :
    (build cs).classes = (List.range' (TypeId.first) cs.length).zip cs ∧
    (build cs).table.size = TypeId.first + cs.length ∧ (build cs).table.Rooted ∧
    (∀ id : Nat, id < TypeId.first → (build cs).table.record? id = ClassTable.standard.record? id) ∧
    ∀ (i : Nat) d, cs[i]? = some d → ∃ p, (build cs).table.Inheritable p ∧
      (build cs).table.record? (TypeId.first + i) =
        some { ClassRecord.empty d.name.name d.name.span with parent := some p } := by
  simp only [build, List.append_eq_nil_iff, List.map_eq_nil_iff] at h ⊢
  obtain ⟨⟨hdeclared, hbad⟩, hcycles⟩ := h
  obtain ⟨hclasses, hrecords⟩ := declareAll_ok hdeclared
  obtain ⟨hsize, hstandard, huser⟩ := record_declared hrecords
  generalize hdecl : declareAll .standard cs = declared at *
  have hstart : ClassTable.standard.size = TypeId.first := by decide +kernel
  rw [hstart] at hclasses
  have hids : declared.classes.map (·.1) = List.range' (TypeId.first) cs.length := by
    rw [hclasses]
    exact List.map_fst_zip (by simp)
  have hnodup : (declared.classes.map (·.1)).Nodup := hids ▸ List.nodup_range'
  obtain ⟨hsize', hother, hlinked⟩ := linkAll_ok hbad hnodup
  -- What linking makes of the two kinds of classes.
  have hkeep : ∀ id : Nat, id < TypeId.first →
      (linkAll declared.table declared.classes).1.record? id = ClassTable.standard.record? id := by
    intro id hid
    rw [hother id (by rw [hids, List.mem_range'_1]; omega), hstandard id hid]
  have hparent : ∀ (i : Nat) d, cs[i]? = some d →
      ∃ p, (linkAll declared.table declared.classes).1.Inheritable p ∧
        (linkAll declared.table declared.classes).1.record? (TypeId.first + i) =
          some { ClassRecord.empty d.name.name d.name.span with parent := some p } := by
    intro i d hd
    have hi : i < cs.length := (List.getElem?_eq_some_iff.mp hd).1
    have hmem : (TypeId.first + i, d) ∈ declared.classes := by
      rw [hclasses]
      refine List.mem_of_getElem? (i := i) ?_
      exact List.getElem?_zip_eq_some.mpr ⟨by simp [hi], hd⟩
    obtain ⟨p, hp, hrec⟩ := hlinked _ hmem
    refine ⟨p, linked_parent hsize'.symm hstandard hp, ?_⟩
    rw [hrec, huser i d hd]
    rfl
  generalize (linkAll declared.table declared.classes).1 = linked at *
  have hpos : TypeId.first ≤ linked.size := by rw [hsize', hsize]; omega
  have hparents : ∀ j p : Nat, linked.parent? j = some p →
      (j < TypeId.first ∧ p = TypeId.any) ∨ (TypeId.first ≤ j ∧ linked.Inheritable p) := by
    intro j p hp
    have hj : j < linked.size := ClassTable.lt_of_parent hp
    by_cases hu : j < TypeId.first
    · exact .inl ⟨hu, standard_parent hkeep hu hp⟩
    · obtain ⟨i, rfl⟩ : ∃ i, j = TypeId.first + i := ⟨j - TypeId.first, by omega⟩
      have hi : i < cs.length := by rw [hsize', hsize] at hj; omega
      obtain ⟨q, hq, hrec⟩ := hparent i _ (List.getElem?_eq_getElem hi)
      rw [ClassTable.parent?, hrec] at hp
      cases hp
      exact .inr ⟨Nat.le_of_not_lt hu, hq⟩
  have hlt : ∀ j p : Nat, linked.parent? j = some p → p < linked.size := by
    intro j p hp
    rcases hparents j p hp with ⟨_, rfl⟩ | ⟨_, hp⟩
    · exact Nat.lt_of_lt_of_le (by decide) hpos
    · exact inheritable_lt hp hpos
  obtain ⟨hcut, hchains⟩ := cutCycles_ok hlt (by
    intro id hid
    rw [hids, List.mem_range'_1] at hid
    rw [hsize', hsize]
    exact hid.2) hcycles
  have hrooted : linked.Rooted := by
    refine ⟨fun id hid => ?_, hlt⟩
    by_cases hu : id < TypeId.first
    · exact standard_chain hkeep hu
    · refine hchains id ?_
      rw [hids, List.mem_range'_1]
      rw [hsize', hsize] at hid
      exact ⟨Nat.le_of_not_lt hu, hid⟩
  refine ⟨?_, ?_, ?_, ?_, ?_⟩
  · rw [hbad, ← hclasses]
    simp [leftOut_nil]
  · rw [hcut, hsize', hsize]
  · rwa [hcut]
  · rwa [hcut]
  · rwa [hcut]

end Hierarchy

end ClassLang
