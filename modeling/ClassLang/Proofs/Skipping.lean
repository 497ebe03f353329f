import ClassLang.Proofs.Blame
import ClassLang.Proofs.Cycles
import ClassLang.Proofs.Isolation
import ClassLang.Proofs.Nesting
import ClassLang.Proofs.Reordering
import ClassLang.Proofs.Success

/-!
# Broken subtrees are skipped

A declared class is left out of the check if it, or an ancestor of it, names a parent that is unknown or
sealed, and no other class is; each bad parent is reported once, and nothing that is reported later stands
in a class that is left out (`Check.broken_subtrees_skipped`).

Which classes are left out is read off a table whose links have been changed twice. A class with a bad
parent was linked to the root, so it is on no cycle; then only links on cycles were cut, and from a cycle
the parents lead to nothing else. So the cuts change nothing for the classes with a bad parent and those
below them (`ascends_build`), and with them no class of a cycle is left out. That the set is read while
it grows is of no matter: what a class that is added to it leaves out was left out before
(`isLeftOut_leaveOut`).
-/

namespace ClassLang

namespace Hierarchy

open CuttingLemmas HierarchyLemmas

/-- The parent that a class names is unknown or sealed, and the error for it. -/
inductive BadParent (cs : List (ClassDecl Span)) (d : ClassDecl Span) : SemanticError → Prop
  | unknown {x : Ident} : d.parent = some x → (∀ r ∈ ClassTable.standard.records, r.name ≠ x.name) →
      (∀ e ∈ cs, e.name.name ≠ x.name) → BadParent cs d ⟨.unknownType x.name, x.span⟩
  | closed {x : Ident} {r : ClassRecord} : d.parent = some x → r ∈ ClassTable.standard.records →
      r.name = x.name → r.isSealed = true → BadParent cs d ⟨.sealedType x.name, x.span⟩

/-- The error for a bad parent stands where the class names it. -/
theorem BadParent.span {cs : List (ClassDecl Span)} {d : ClassDecl Span} {e : SemanticError}
    (h : BadParent cs d e) : ∃ x ∈ d.parent, x.span = e.span := by
  cases h with
  | unknown hx _ _ => exact ⟨_, hx, rfl⟩
  | closed hx _ _ _ => exact ⟨_, hx, rfl⟩

/-- A class, or an ancestor of it, has a bad parent. -/
def Broken (cs : List (ClassDecl Span)) (c : TypeId × ClassDecl Span) : Prop :=
  ∃ b ∈ declared cs, (∃ e, BadParent cs b.2 e) ∧
    Relation.ReflTransGen (Extends ((declared cs).map (·.2))) c.2.name.name b.2.name.name

namespace SkippingLemmas

/-! ## Names -/

section

variable {t t' : ClassTable} {id j : TypeId} {x : Ident} {name : String}

theorem find_declare (h : t.declare x = .ok (id, t')) :
    t'.find? name = if x.name = name then some id else t.find? name := by
  obtain ⟨hnone, rfl, rfl⟩ := ClassTable.declare_ok h
  rw [ClassTable.find?, List.findIdx?_append]
  split
  · next heq =>
    subst heq
    rw [show t.records.findIdx? (·.name == x.name) = none from hnone]
    simp [ClassRecord.empty, ClassTable.size]
  · next hne => simp [ClassRecord.empty, hne, ClassTable.find?]

/-- A name stands for what it stood for in front of the declarations, or for a declared class. -/
theorem find_declareAll (ds : List (ClassDecl Span)) : (declareAll t ds).table.find? name = some j ↔
    t.find? name = some j ∨ ∃ c ∈ (declareAll t ds).classes, c.1 = j ∧ c.2.name.name = name := by
  induction ds generalizing t with
  | nil => simp [declareAll]
  | cons d ds ih =>
    unfold declareAll
    split
    · next id t' hd =>
      have hnone := (ClassTable.declare_ok hd).1
      dsimp only
      rw [ih, find_declare hd, List.exists_mem_cons_iff, ← or_assoc]
      refine or_congr_left ?_
      split
      · next heq => simp [← heq, hnone]
      · next hne => simp [hne]
    · exact ih

theorem find_declareAll_none (ds : List (ClassDecl Span)) : (declareAll t ds).table.find? name = none ↔
    t.find? name = none ∧ ∀ d ∈ ds, d.name.name ≠ name := by
  induction ds generalizing t with
  | nil => simp [declareAll]
  | cons d ds ih =>
    unfold declareAll
    rw [List.forall_mem_cons, ← and_assoc]
    split
    · next id t' hd =>
      dsimp only
      rw [ih, find_declare hd]
      refine and_congr_left' ?_
      split
      · next heq => simp [heq]
      · next hne => simp [hne]
    · next e hd =>
      dsimp only
      rw [ih]
      refine and_congr_left' (iff_self_and.mpr fun hnone heq => ?_)
      -- The class is not declared because its name stands for another one.
      rw [ClassTable.declare, heq, hnone] at hd
      cases hd

theorem find_standard : ClassTable.standard.find? name = some id ↔
    ∃ r, ClassTable.standard.record? id = some r ∧ r.name = name :=
  find_iff (by decide +kernel)

theorem find_standard_none : ClassTable.standard.find? name = none ↔
    ∀ r ∈ ClassTable.standard.records, r.name ≠ name := by
  simp [ClassTable.find?]

end

theorem declareAll_duplicates (t : ClassTable) (ds : List (ClassDecl Span)) :
    ∀ e ∈ (declareAll t ds).errors, ∃ d ∈ ds, e = ⟨.duplicateDeclaration d.name.name, d.name.span⟩ := by
  induction ds generalizing t with
  | nil => exact List.forall_mem_nil _
  | cons d ds ih =>
    have hmore (t : ClassTable) (e : SemanticError) (he : e ∈ (declareAll t ds).errors) :
        ∃ d' ∈ d :: ds, e = ⟨.duplicateDeclaration d'.name.name, d'.name.span⟩ := by
      obtain ⟨d', hd', heq⟩ := ih t e he
      exact ⟨d', List.mem_cons_of_mem _ hd', heq⟩
    unfold declareAll
    split
    · exact hmore _
    · next hd =>
      exact List.forall_mem_cons.mpr ⟨⟨d, List.mem_cons_self, ClassTable.declare_error hd⟩, hmore t⟩

variable {cs : List (ClassDecl Span)} {b c : TypeId × ClassDecl Span}

theorem ne_any (hc : c ∈ declared cs) : c.1 ≠ TypeId.any := by
  have hle := (declared_bounds hc).1
  intro heq
  exact absurd (heq ▸ hle) (by decide)

/-- Declared classes have indices of their own. -/
theorem eq_of_id (hb : b ∈ declared cs) (hc : c ∈ declared cs) (h : b.1 = c.1) : b = c :=
  List.inj_on_of_nodup_map (declared_nodup cs) hb hc h

/-- Declared classes have names of their own. -/
theorem eq_of_name (hb : b ∈ declared cs) (hc : c ∈ declared cs)
    (h : b.2.name.name = c.2.name.name) : b = c := by
  have hfind : (declareAll .standard cs).table.find? c.2.name.name = some b.1 :=
    (find_declareAll cs).mpr (.inr ⟨b, hb, rfl, h⟩)
  rw [(find_declareAll cs).mpr (.inr ⟨c, hc, rfl, rfl⟩)] at hfind
  exact eq_of_id hb hc (Option.some.inj hfind).symm

/-- What a name stands for behind the declarations: a built-in class or a declared one. -/
theorem find_cases {name : String} {id : TypeId} (h : (declareAll .standard cs).table.find? name = some id) :
    (∃ r ∈ ClassTable.standard.records, (declareAll .standard cs).table.record? id = some r ∧
      r.name = name ∧ id < TypeId.first) ∨
    ∃ c ∈ declared cs, c.1 = id ∧ c.2.name.name = name ∧
      (declareAll .standard cs).table.record? id = some (.empty name c.2.name.span) := by
  obtain ⟨_, hstandard, huser⟩ := declared_each cs
  rcases (find_declareAll cs).mp h with h | ⟨c, hc, rfl, rfl⟩
  · obtain ⟨r, hr, hname⟩ := find_standard.mp h
    have hlt : id < TypeId.first := ClassTable.lt_of_record hr
    exact .inl ⟨r, List.mem_of_getElem? hr, (hstandard id hlt).trans hr, hname, hlt⟩
  · exact .inr ⟨c, hc, rfl, rfl, huser c hc⟩

/-! ## Parents -/

section

variable {t : ClassTable} {d : ClassDecl Span} {x : Ident} {e : SemanticError}

theorem parentOf_unknown (hx : d.parent = some x) (hfind : t.find? x.name = none) :
    parentOf t d = .error ⟨.unknownType x.name, x.span⟩ := by
  simp [parentOf, hx, ClassTable.resolve, hfind, bind, Except.bind]

theorem parentOf_found {id : TypeId} {r : ClassRecord} (hx : d.parent = some x)
    (hfind : t.find? x.name = some id) (hr : t.record? id = some r) :
    parentOf t d = if r.isSealed then .error ⟨.sealedType r.name, x.span⟩ else .ok id := by
  simp only [parentOf, hx, ClassTable.resolve, hfind, bind, Except.bind, hr, Option.any_some, ClassTable.name,
    Option.map_some, Option.getD_some]
  rfl

/-- Linking reports the bad parents and nothing else. -/
theorem parentOf_error : parentOf (declareAll .standard cs).table d = .error e ↔ BadParent cs d e := by
  constructor
  · intro h
    cases hx : d.parent with
    | none =>
      rw [parentOf, hx] at h
      cases h
    | some x =>
      cases hfind : (declareAll .standard cs).table.find? x.name with
      | none =>
        rw [parentOf_unknown hx hfind] at h
        cases h
        obtain ⟨hbuiltin, hnew⟩ := (find_declareAll_none cs).mp hfind
        exact .unknown hx (find_standard_none.mp hbuiltin) hnew
      | some id =>
        rcases find_cases hfind with ⟨r, hmem, hr, hname, _⟩ | ⟨c, _, _, _, hr⟩
        · rw [parentOf_found hx hfind hr] at h
          split at h <;> cases h
          rw [hname]
          exact .closed hx hmem hname ‹_›
        · rw [parentOf_found hx hfind hr] at h
          cases h
  · rintro (⟨hx, hbuiltin, hnew⟩ | ⟨hx, hmem, hname, hsealed⟩)
    · exact parentOf_unknown hx ((find_declareAll_none cs).mpr ⟨find_standard_none.mpr hbuiltin, hnew⟩)
    · obtain ⟨id, hr⟩ := List.mem_iff_getElem?.mp hmem
      have hlt : id < TypeId.first := ClassTable.lt_of_record hr
      have hfind := (find_declareAll cs).mpr (.inl (find_standard.mpr ⟨_, hr, hname⟩))
      rw [parentOf_found hx hfind (((declared_each cs).2.1 id hlt).trans hr), if_pos hsealed, hname]

/-- A class is linked to a declared class if it names it. -/
theorem linkOf_declared (hc : c ∈ declared cs) : linkOf (declareAll .standard cs).table d = c.1 ↔
    ∃ x ∈ d.parent, x.name = c.2.name.name := by
  have hne := (ne_any hc).symm
  constructor
  · intro h
    cases hx : d.parent with
    | none =>
      rw [linkOf, parentOf, hx] at h
      exact absurd h hne
    | some x =>
      cases hfind : (declareAll .standard cs).table.find? x.name with
      | none =>
        rw [linkOf, parentOf_unknown hx hfind] at h
        exact absurd h hne
      | some id =>
        refine ⟨x, rfl, ?_⟩
        rcases find_cases hfind with ⟨r, _, hr, _, hlt⟩ | ⟨b, hb, rfl, hname, hr⟩
        · rw [linkOf, parentOf_found hx hfind hr] at h
          split at h
          · next heq =>
            split at heq <;> cases heq
            exact absurd (h ▸ hlt) (Nat.not_lt_of_le (declared_bounds hc).1)
          · exact absurd h hne
        · rw [linkOf, parentOf_found hx hfind hr] at h
          rw [← eq_of_id hb hc h, hname]
  · rintro ⟨x, hx, hname⟩
    have hfind := (find_declareAll cs).mpr (.inr ⟨c, hc, rfl, hname.symm⟩)
    rw [linkOf, parentOf_found hx hfind ((declared_each cs).2.2 c hc)]
    rfl

end

/-- The errors of the linking are those of the bad parents, in the order of the text. -/
theorem bad_reported (cs : List (ClassDecl Span)) : List.Forall₂ (fun c e => BadParent cs c.2 e)
    ((declared cs).filter fun c => (badLink? (declareAll .standard cs).table c).isSome)
    ((linkAll (declareAll .standard cs).table (declared cs)).2.map (·.2)) := by
  obtain ⟨_, _, _, _, hbad⟩ := linkAll_each (t := (declareAll .standard cs).table) (declared_nodup cs)
  rw [hbad]
  induction declared cs with
  | nil => exact .nil
  | cons c ds ih =>
    cases hparent : parentOf (declareAll .standard cs).table c.2 with
    | ok id =>
      have hnone : badLink? (declareAll .standard cs).table c = none := by rw [badLink?, hparent]
      simpa [hnone] using ih
    | error e =>
      have hsome : badLink? (declareAll .standard cs).table c = some (c.1, e) := by rw [badLink?, hparent]
      rw [List.filter_cons_of_pos (by rw [hsome]; rfl), List.filterMap_cons_some hsome]
      exact .cons (parentOf_error.mp hparent) ih

/-! ## Ancestors -/

theorem linked_link (hc : c ∈ declared cs) :
    (linked cs).parent? c.1 = some (linkOf (declareAll .standard cs).table c.2) :=
  ClassTable.parent_of_record ((linked_each cs).2.2.2 c hc)

/-- The parents of built-in classes are built-in. -/
theorem first_le_of_ascends {i j : Nat} (h : Ascends (linked cs).parent? i j) (hj : TypeId.first ≤ j) :
    TypeId.first ≤ i := by
  induction h using Relation.ReflTransGen.head_induction_on with
  | refl => exact hj
  | @head i p hp _ ih =>
    refine Nat.le_of_not_lt fun hlt => ?_
    rw [standard_parent (linked_each cs).2.1 hlt hp] at ih
    exact absurd ih (by decide)

/-- The links lead from one declared class to another if the names do. -/
theorem ascends_linked (hc : c ∈ declared cs) (hb : b ∈ declared cs) :
    Ascends (linked cs).parent? c.1 b.1 ↔
      Relation.ReflTransGen (Extends ((declared cs).map (·.2))) c.2.name.name b.2.name.name := by
  constructor
  · intro h
    generalize hid : c.1 = i at h
    induction h using Relation.ReflTransGen.head_induction_on generalizing c with
    | refl => rw [eq_of_id hc hb hid]
    | @head i p hp hrest ih =>
      subst hid
      obtain ⟨d, hd, rfl⟩ := exists_declared (first_le_of_ascends hrest (declared_bounds hb).1)
        ((linked_searched cs).parent_lt _ _ hp)
      rw [linked_link hc, Option.some.injEq, linkOf_declared hd] at hp
      exact .head ⟨c.2, List.mem_map_of_mem hc, rfl, hp⟩ (ih hd rfl)
  · intro h
    -- A name on the way is that of a declared class, since it leads further or is the last one.
    have hup : ∃ d ∈ declared cs, d.2.name.name = c.2.name.name ∧ Ascends (linked cs).parent? d.1 b.1 := by
      generalize c.2.name.name = name at h
      induction h using Relation.ReflTransGen.head_induction_on with
      | refl => exact ⟨b, hb, rfl, .refl⟩
      | @head x y hxy _ ih =>
        obtain ⟨d, hd, hname, hup⟩ := ih
        obtain ⟨e, he, rfl, hparent⟩ := hxy
        obtain ⟨e, hmem, rfl⟩ := List.mem_map.mp he
        refine ⟨e, hmem, rfl, .head ?_ hup⟩
        rw [linked_link hmem, (linkOf_declared hd).mpr (hname.symm ▸ hparent)]
    obtain ⟨d, hd, hname, hup⟩ := hup
    rwa [eq_of_name hd hc hname] at hup

/-- A class with a bad parent is linked to the root, so it is on no cycle. -/
theorem bad_not_onCycle {e : SemanticError} (hb : b ∈ declared cs) (hbad : BadParent cs b.2 e) :
    ¬ OnCycle (linked cs).parent? b.1 := by
  intro hcycle
  have hroot : (linked cs).parent? b.1 = some TypeId.any := by
    rw [linked_link hb, linkOf, parentOf_error.mpr hbad]
  obtain ⟨p, hp, _⟩ := Ascends.onCycle (.single hroot) hcycle
  rw [linked_any] at hp
  cases hp

/-- Cutting cycles keeps the descendants of a class that is on none. -/
theorem ascends_build (hb : b ∈ declared cs) (hnot : ¬ OnCycle (linked cs).parent? b.1) {i : Nat} :
    Ascends (build cs).table.parent? i b.1 ↔ Ascends (linked cs).parent? i b.1 := by
  obtain ⟨cuts, hfound, _⟩ := searched_found cs
  rw [build_table]
  have hsame (k : Nat) (hk : k ∉ cuts.map (·.2)) : (searched cs).table.parent? k = (linked cs).parent? k := by
    rw [ClassTable.parent?, hfound.record, if_neg hk]
    rfl
  constructor
  · intro h
    induction h using Relation.ReflTransGen.head_induction_on with
    | refl => exact .refl
    | @head i p hp hrest ih =>
      refine .head ?_ ih
      by_cases hcut : i ∈ cuts.map (·.2)
      · -- The parent of a class whose link was cut is the root, and it has none.
        rw [ClassTable.parent?, hfound.record, if_pos hcut] at hp
        obtain ⟨r, hr, hp⟩ := Option.bind_eq_some_iff.mp hp
        obtain ⟨_, _, rfl⟩ := Option.map_eq_some_iff.mp hr
        cases hp
        rcases ih.cases_head with heq | ⟨q, hq, _⟩
        · exact absurd heq.symm (ne_any hb)
        · rw [linked_any] at hq
          cases hq
      · rwa [← hsame i hcut]
  · intro h
    induction h using Relation.ReflTransGen.head_induction_on with
    | refl => exact .refl
    | @head i p hp hrest ih =>
      refine .head ((hsame i fun hcut => hnot ?_).trans hp) ih
      obtain ⟨c, hc, rfl⟩ := List.mem_map.mp hcut
      exact Ascends.onCycle (.head hp hrest) (hfound.link c hc).2

/-! ## What is left out -/

theorem mem_bad {id : TypeId} :
    id ∈ (linkAll (declareAll .standard cs).table (declared cs)).2.map (·.1) ↔
      ∃ b ∈ declared cs, b.1 = id ∧ ∃ e, BadParent cs b.2 e := by
  obtain ⟨_, _, _, _, hbad⟩ := linkAll_each (t := (declareAll .standard cs).table) (declared_nodup cs)
  rw [hbad, List.map_filterMap, List.mem_filterMap]
  refine exists_congr fun b => and_congr_right fun _ => ?_
  simp only [← parentOf_error, badLink?]
  cases parentOf (declareAll .standard cs).table b.2 <;> simp

theorem build_within (cs : List (ClassDecl Span)) :
    Within (build cs).table.parent? (build cs).table.size ∧ 0 < (build cs).table.size := by
  obtain ⟨hrooted, hsize, _⟩ := build_rooted cs
  refine ⟨fun i p hp => ⟨ClassTable.lt_of_parent hp, hrooted.parent_lt i p hp⟩, ?_⟩
  rw [hsize]
  exact Nat.lt_of_lt_of_le (by decide) (Nat.le_add_right TypeId.first _)

/-- A class is left out if its links lead to a class with a bad parent. -/
theorem not_mem_build (hc : c ∈ declared cs) : c ∉ (build cs).classes ↔
    ∃ b ∈ declared cs, (∃ e, BadParent cs b.2 e) ∧ Ascends (linked cs).parent? c.1 b.1 := by
  obtain ⟨hrooted, hsize, _⟩ := build_rooted cs
  obtain ⟨hin, hpos⟩ := build_within cs
  have hid : c.1 ∈ (declared cs).map (·.1) := List.mem_map_of_mem hc
  have hlt : c.1 < (build cs).table.size := hsize ▸ (declared_bounds hc).2
  have hclasses : (build cs).classes = (declared cs).filter fun c => !(leftOut (build cs).table
      ((linkAll (declareAll .standard cs).table (declared cs)).2.map (·.1))
      ((declared cs).map (·.1))).contains c.1 := rfl
  rw [hclasses, List.mem_filter, leftOut_contains hrooted hid hlt]
  simp only [hc, true_and, Bool.not_eq_true', Bool.not_eq_false, isLeftOut_iff, mem_bad,
    ClassTable.isSubclass_iff, ClassTable.ancestors, mem_lineage_iff hin hpos]
  constructor
  · rintro ⟨_, ⟨b, hb, rfl, e, hbad⟩, hup⟩
    exact ⟨b, hb, ⟨e, hbad⟩, (ascends_build hb (bad_not_onCycle hb hbad)).mp hup⟩
  · rintro ⟨b, hb, ⟨e, hbad⟩, hup⟩
    exact ⟨b.1, ⟨b, hb, rfl, e, hbad⟩, (ascends_build hb (bad_not_onCycle hb hbad)).mpr hup⟩

/-- The error for a cycle stands in a class of it, and this class is not left out. -/
theorem cycle_kept {id : TypeId} (h : OnCycle (linked cs).parent? id) :
    ∃ c ∈ (build cs).classes, (cycleError (linked cs) id).span ∈ c.2.outline.spans := by
  obtain ⟨c, hc, rfl⟩ := OnCycle.declared h
  refine ⟨c, ?_, ?_⟩
  · by_contra hnot
    obtain ⟨b, hb, ⟨e, hbad⟩, hup⟩ := (not_mem_build hc).mp hnot
    exact bad_not_onCycle hb hbad (hup.onCycle h)
  · rw [cycleError, (linked_each cs).2.2.2 c hc]
    exact name_mem c.2.outline.within_spans

end SkippingLemmas

end Hierarchy

/-! ## Places of classes -/

/-- One of the spans ends before the other one starts. -/
def Span.Apart (s t : Span) : Prop := s.stop ≤ t.start ∨ t.stop ≤ s.start

section

variable {source : String} {p : Program Span} {c d : TypeId × ClassDecl Span}

theorem Hierarchy.declared_apart (h : Program.ofSource source = .ok p) (hc : c ∈ declared p.classes)
    (hd : d ∈ declared p.classes) (hne : c ≠ d) :
    ∀ s ∈ c.2.outline.spans, ∀ s' ∈ d.2.outline.spans, s.Apart s' := by
  have hpairs := List.pairwise_map.mp
    ((Program.ofSource_apart h).sublist (declareAll_sublist .standard p.classes))
  intro s hs s' hs'
  obtain ⟨i, hi, rfl⟩ := List.mem_iff_getElem.mp hc
  obtain ⟨j, hj, rfl⟩ := List.mem_iff_getElem.mp hd
  rcases Nat.lt_trichotomy i j with hlt | rfl | hlt
  · exact .inl (List.pairwise_iff_getElem.mp hpairs i j hi hj hlt s hs s' hs')
  · exact absurd rfl hne
  · exact .inr (List.pairwise_iff_getElem.mp hpairs j i hj hi hlt s' hs' s hs)

end

/-! ## The errors of a program -/

namespace Check

open Hierarchy SkippingLemmas

/-- Whatever is found about members is found in a class that is not left out. -/
theorem checked_errors_kept (p : Program Span) : ∀ e ∈ (entries p).2.2 ++
    (entries p).1.flatMap (fun c => (classDecl (entries p).2.1.layout c).2),
      ∃ c ∈ (build p.classes).classes, e.span ∈ c.2.outline.spans := by
  -- The places of a class under its index.
  let S (id : TypeId) : List Span := ((declared p.classes).filter (·.1 == id)).flatMap (·.2.outline.spans)
  have hS : ∀ c ∈ declared p.classes, c.2.outline.Within (S c.1) := fun c hc => c.2.outline.within_iff.mpr fun s hs =>
    List.mem_flatMap.mpr ⟨c, List.mem_filter.mpr ⟨hc, beq_self_eq_true c.1⟩, hs⟩
  have hplaces (e : SemanticError) (c : TypeId × ClassDecl Span) (hc : c ∈ (build p.classes).classes)
      (he : e.span ∈ S c.1) : ∃ c ∈ (build p.classes).classes, e.span ∈ c.2.outline.spans := by
    obtain ⟨d, hd, he⟩ := List.mem_flatMap.mp he
    obtain ⟨hd, hid⟩ := List.mem_filter.mp hd
    have heq := eq_of_id hd (List.mem_filter.mp hc).1 (by simpa using hid)
    exact ⟨c, hc, heq ▸ he⟩
  obtain ⟨hwritten, hsited, hentered⟩ := program_entered hS
  intro e he
  rcases List.mem_append.mp he with he | he
  · obtain ⟨c, hc, he⟩ := hentered e he
    exact hplaces e c hc he
  · obtain ⟨c, hc, he⟩ := List.mem_flatMap.mp he
    have hid : c.id ∈ (build p.classes).classes.map (·.1) := by
      rw [← Registration.classList_ids (build p.classes).table]
      exact List.mem_map_of_mem hc
    obtain ⟨d, hd, heq⟩ := List.mem_map.mp hid
    exact hplaces e d hd (heq ▸ classDecl_blames hsited.layout (hwritten c hc) e he)

/-- Exactly the broken classes are left out. Behind the errors of duplicate names, each bad parent has one
error, in the order of the text, and each later error stands in a class that is not left out; in a text,
it stands apart from all parts of the classes that are. -/
theorem broken_subtrees_skipped (p : Program Span) :
    (∀ c ∈ declared p.classes, c ∉ (build p.classes).classes ↔ Broken p.classes c) ∧
    ∃ (bad : List (TypeId × ClassDecl Span)) (duplicates found later : List SemanticError),
      bad.Sublist (declared p.classes) ∧
      (∀ c ∈ declared p.classes, c ∈ bad ↔ ∃ e, BadParent p.classes c.2 e) ∧
      errors p = duplicates ++ found ++ later ∧
      (∀ e ∈ duplicates, ∃ d ∈ p.classes, e = ⟨.duplicateDeclaration d.name.name, d.name.span⟩) ∧
      List.Forall₂ (fun c e => BadParent p.classes c.2 e) bad found ∧
      (∀ e ∈ later, ∃ c ∈ (build p.classes).classes, e.span ∈ c.2.outline.spans) ∧
      ∀ source, Program.ofSource source = .ok p → ∀ e ∈ later, ∀ c ∈ declared p.classes,
        c ∉ (build p.classes).classes → ∀ s ∈ c.2.outline.spans, e.span.Apart s := by
  obtain ⟨cuts, hcuts, _⟩ := searched_found p.classes
  let later : List SemanticError := cuts.map (fun c => cycleError (linked p.classes) c.1) ++
    ((entries p).2.2 ++ (entries p).1.flatMap fun c => (classDecl (entries p).2.1.layout c).2)
  have hlater : ∀ e ∈ later, ∃ c ∈ (build p.classes).classes, e.span ∈ c.2.outline.spans := by
    refine List.forall_mem_append.mpr ⟨List.forall_mem_map.mpr fun c hc => ?_, checked_errors_kept p⟩
    exact cycle_kept (hcuts.next_onCycle hc)
  refine ⟨fun c hc => ?_, _, _, _, later, List.filter_sublist, fun c hc => ?_, ?_,
    declareAll_duplicates .standard p.classes, bad_reported p.classes, hlater,
    fun source hsource e he c hc hnot => ?_⟩
  · rw [not_mem_build hc]
    exact exists_congr fun b => and_congr_right fun hb => and_congr_right fun _ => ascends_linked hc hb
  · rw [List.mem_filter, and_iff_right hc]
    simp only [← parentOf_error, badLink?]
    cases parentOf (declareAll .standard p.classes).table c.2 <;> simp
  · rw [errors_eq, build_errors, hcuts.errors]
    simp only [later, List.append_assoc]
  · obtain ⟨d, hd, he⟩ := hlater e he
    have hne : d ≠ c := fun heq => hnot (heq ▸ hd)
    exact declared_apart hsource (List.mem_filter.mp hd).1 hc hne _ he

/-- A class in front of its parent, whose own parent is unknown, a class with a sealed parent, and a class that is
not left out. The members of the first one and of the last one are of unknown types. -/
def severed : String :=
  "class Leaf : Branch\n\x7b\n public shape: Lost\n\x7d\n\nclass Branch : Nowhere\n\x7b\n\x7d\n\n" ++
    "class Odd : number\n\x7b\n\x7d\n\nclass Main\n\x7b\n public shape: Lost\n\x7d\n"

/-- The errors of the program: two bad parents, and a type in the class that is not left out. -/
def severedErrors : List SemanticError := [⟨.unknownType "Nowhere", ⟨60, 67, 6, 16⟩⟩,
  ⟨.sealedType "number", ⟨85, 91, 10, 13⟩⟩, ⟨.unknownType "Lost", ⟨125, 129, 16, 16⟩⟩]

theorem severed_skipped : ∃ p c, Program.ofSource severed = .ok p ∧ errors p = severedErrors ∧
    c ∈ declared p.classes ∧ c.2.name.name = "Leaf" ∧ Broken p.classes c ∧
    Span.Apart ⟨125, 129, 16, 16⟩ c.2.span := by
  have hrun : (Program.ofSource severed).toOption.bind (fun (p : Program Span) =>
      (declared p.classes)[0]?.bind fun c => some (c.2.name.name, errors p,
        (build p.classes).classes.map (·.2.name.name), p.classes.flatMap (·.parent.toList.map (·.span)))) =
      some ("Leaf", severedErrors, ["Main"], [⟨13, 19, 1, 14⟩, ⟨60, 67, 6, 16⟩, ⟨85, 91, 10, 13⟩]) := by
    decide +kernel
  simp only [Option.bind_eq_some_iff, Option.some.injEq, Prod.mk.injEq, toOption_eq_some] at hrun
  obtain ⟨p, hp, c, hc, hname, herrors, hkept, hparents⟩ := hrun
  obtain ⟨hbroken, bad, duplicates, found, later, hbad, _, hall, hduplicates, hfound, _, hapart⟩ :=
    broken_subtrees_skipped p
  have hmem : c ∈ declared p.classes := List.mem_of_getElem? hc
  have hnot : c ∉ (build p.classes).classes := by
    intro hleft
    have hname' := List.mem_map_of_mem (f := (·.2.name.name)) hleft
    rw [hkept, hname] at hname'
    exact absurd hname' (by decide)
  have hlater : ⟨.unknownType "Lost", ⟨125, 129, 16, 16⟩⟩ ∈ later := by
    have hlost : ⟨.unknownType "Lost", ⟨125, 129, 16, 16⟩⟩ ∈ errors p := by
      rw [herrors]
      decide
    rw [hall, List.mem_append, List.mem_append] at hlost
    refine hlost.resolve_left fun hearly => ?_
    rcases hearly with hd | hf
    · obtain ⟨d, _, heq⟩ := hduplicates _ hd
      cases heq
    · -- No class names its parent there.
      obtain ⟨i, hi, heq⟩ := List.mem_iff_getElem.mp hf
      have hi' : i < bad.length := hfound.length_eq ▸ hi
      obtain ⟨x, hx, hspan⟩ := (hfound.get hi' hi).span
      rw [List.get_eq_getElem, heq] at hspan
      have hdecl : bad[i].2 ∈ p.classes := (declareAll_sublist .standard p.classes).subset
        (List.mem_map_of_mem (hbad.subset (List.getElem_mem hi')))
      have hspans : x.span ∈ p.classes.flatMap (·.parent.toList.map (·.span)) :=
        List.mem_flatMap.mpr ⟨_, hdecl, List.mem_map_of_mem (Option.mem_toList.mpr hx)⟩
      rw [hparents, hspan] at hspans
      exact absurd hspans (by decide)
  exact ⟨p, c, hp, herrors, hmem, hname, (hbroken c hmem).mp hnot,
    hapart severed hp _ hlater c hmem hnot _ List.mem_cons_self⟩

end Check

end ClassLang
