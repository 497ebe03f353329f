import ClassLang.Proofs.Cutting
import ClassLang.Proofs.ReorderedCheck

/-!
# The layout of fields

The layout works on the class table of every program, also of one that has errors: names declared twice,
members that cannot be entered, cycles that were cut, and classes that are left out because their parent
is unknown or sealed. In each of these tables the fields of a class that could be entered lie one after
the other behind those of its parent, and no two fields of an instance share a slot
(`Check.fields_laid_out`).

That the chains of parents end is all that the layout needs (`ClassTable.layout_placed`), and they do
(`Hierarchy.build_rooted`). What is left to show here is that the fields in the table are those that could
be entered, in the order of the text.
-/

namespace ClassLang

namespace Registration

/-- The members that could be entered. -/
def acceptedMembers (ms : List (MemberDecl Span × Bool)) : List (MemberDecl Span) :=
  (ms.filter (·.2)).map (·.1)

/-- The fields of a class that could be entered, in the order of the text. -/
def Entered.fields (c : Entered) : List (FieldDecl Span) :=
  (acceptedMembers c.members).filterMap fun | .field d => some d | _ => none

theorem Entered.fields_names (c : Entered) :
    c.fields.map (·.name.name) = (acceptedMembers c.members).filterMap (·.fieldName?) := by
  rw [Entered.fields, List.map_filterMap]
  refine List.filterMap_congr fun m _ => ?_
  cases m <;> rfl

/-- Of the members of a class those are entered that are accepted. -/
theorem memberList_accepts (t : ClassTable) (id : Nat) (ms : List (MemberDecl Span)) :
    Enters t (memberList t id ms).table id
      ((acceptedMembers (memberList t id ms).members).filterMap (·.fieldName?))
      ((acceptedMembers (memberList t id ms).members).filterMap (·.signature?)) := by
  induction ms generalizing t with
  | nil => exact .refl
  | cons m ms ih =>
    rw [memberList]
    split
    · next t' hm =>
      have hboth := (member_enters hm).1.trans (ih t')
      cases m <;> exact hboth
    · exact ih t

/-- The fields of a class are those that are accepted. -/
theorem classDecl_accepts (t : ClassTable) (id : Nat) (d : ClassDecl Span) : ∃ signatures,
    Enters t (classDecl t id d).2.1 id ((classDecl t id d).1.fields.map (·.name.name)) signatures := by
  have hlist := memberList_accepts t id d.members
  rw [Entered.fields_names]
  simp only [classDecl]
  split
  · split
    · next t' hadd =>
      have hboth := hlist.trans (addMethod_enters hadd)
      rw [List.append_nil] at hboth
      exact ⟨_, hboth⟩
    · exact ⟨_, hlist⟩
  · exact ⟨_, hlist⟩

end Registration

namespace Check

open Hierarchy Registration

/-- The class table of a program behind the layout, whatever errors the program has. -/
def laidOut (p : Program Span) : ClassTable := (entries p).2.1.layout

/-- The fields of a class that could be entered, in the order of the text. A class that is left out has
none. -/
def acceptedFields (p : Program Span) (id : TypeId) : List (FieldDecl Span) :=
  (((entries p).1.find? (·.id == id)).map (·.fields)).getD []

namespace FieldLayoutLemmas

variable {p : Program Span} {c : TypeId × ClassDecl Span}

theorem built_sublist (p : Program Span) :
    (build p.classes).classes.Sublist (declared p.classes) := List.filter_sublist

theorem built_nodup (p : Program Span) : ((build p.classes).classes.map (·.1)).Nodup :=
  (declared_nodup p.classes).sublist ((built_sublist p).map _)

/-- A class is found under its index. -/
theorem find_entered_of_mem (hc : c ∈ (build p.classes).classes) : (entries p).1.find? (·.id == c.1) =
    some (Registration.classDecl (build p.classes).table c.1 c.2).1 := by
  obtain ⟨hlist, _⟩ := classList_each (t := (build p.classes).table) (built_nodup p)
  obtain ⟨left, right, hsplit⟩ := List.append_of_mem hc
  have hnodup := built_nodup p
  rw [entries, hlist]
  rw [hsplit] at hnodup ⊢
  rw [List.map_append, List.map_cons] at hnodup ⊢
  have hleft : ∀ e ∈ left.map fun c => (Registration.classDecl (build p.classes).table c.1 c.2).1,
      e.id ≠ c.1 := by
    intro e he heq
    obtain ⟨b, hb, rfl⟩ := List.mem_map.mp he
    rw [classDecl_id] at heq
    exact (List.nodup_append.mp hnodup).2.2 b.1 (List.mem_map_of_mem hb) c.1 List.mem_cons_self heq
  have hid : (Registration.classDecl (build p.classes).table c.1 c.2).1.id = c.1 := classDecl_id _ _ _
  generalize (Registration.classDecl (build p.classes).table c.1 c.2).1 = entered at hid
  obtain ⟨id, d, ms, implicit⟩ := entered
  rw [← hid] at hleft ⊢
  exact find_entered hleft

/-- A class that is left out is not found. -/
theorem find_entered_of_not_mem {id : TypeId} (hid : id ∉ (build p.classes).classes.map (·.1)) :
    (entries p).1.find? (·.id == id) = none := by
  rw [List.find?_eq_none]
  intro e he heq
  rw [← classList_ids (build p.classes).table] at hid
  exact hid (List.mem_map.mpr ⟨e, he, by simpa using heq⟩)

/-- The table before the layout: of a declared class it has the fields that could be entered. -/
theorem entries_record (hc : c ∈ declared p.classes) : ∃ parent fields methods,
    (entries p).2.1.record? c.1 = some { ClassRecord.empty c.2.name.name c.2.name.span with
      parent := some parent, fields := fields, methods := methods } ∧
      fields.map (·.name) = (acceptedFields p c.1).map (·.name.name) := by
  obtain ⟨_, _, _, huser⟩ := build_rooted p.classes
  obtain ⟨parent, _, hr⟩ := huser c hc
  obtain ⟨_, _, _, _, hother, heach⟩ := classList_each (t := (build p.classes).table) (built_nodup p)
  refine ⟨parent, ?_⟩
  by_cases hmem : c.1 ∈ (build p.classes).classes.map (·.1)
  · obtain ⟨b, hb, hid⟩ := List.mem_map.mp hmem
    -- Two declared classes of one index are the same.
    obtain rfl : b = c := List.inj_on_of_nodup_map (declared_nodup p.classes)
      ((built_sublist p).subset hb) hc hid
    obtain ⟨signatures, henters⟩ := classDecl_accepts (build p.classes).table b.1 b.2
    obtain ⟨fields, methods, hr', hfields, _⟩ := henters.own _ hr List.nodup_nil List.nodup_nil
    refine ⟨fields, methods, (heach b hb).trans hr', ?_⟩
    rw [acceptedFields, find_entered_of_mem hb, hfields]
    rfl
  · refine ⟨[], [], (hother _ hmem).trans hr, ?_⟩
    rw [acceptedFields, find_entered_of_not_mem hmem]
    rfl

/-- The table before the layout is ready for it. -/
theorem entries_placedOnce (p : Program Span) :
    (entries p).2.1.Rooted ∧ (entries p).2.1.PlacedOnce := by
  obtain ⟨hroot, hsize, hstandard, _⟩ := build_rooted p.classes
  obtain ⟨_, _, hsize', _, hother, _⟩ := classList_each (t := (build p.classes).table) (built_nodup p)
  refine ⟨classList_rooted (built_nodup p) hroot,
    placedOnce_of_standard (fun id hid => ?_) fun id r hid hr => ?_⟩
  · refine (hother id fun hmem => ?_).trans (hstandard id hid)
    have hdeclared := ((built_sublist p).map (·.1)).subset hmem
    exact Nat.not_le_of_lt hid (mem_declared_ids.mp hdeclared).1
  · have hlt : id < TypeId.first + (declared p.classes).length := by
      rw [← hsize, ← hsize']
      exact ClassTable.lt_of_record hr
    have hmem : id ∈ (declared p.classes).map (·.1) :=
      mem_declared_ids.mpr ⟨Nat.le_of_not_lt hid, hlt⟩
    obtain ⟨c, hc, rfl⟩ := List.mem_map.mp hmem
    obtain ⟨_, _, _, hr', _⟩ := entries_record hc
    rw [hr] at hr'
    cases hr'
    rfl

/-- Fields with their slots, if they are placed one behind the other. -/
theorem slots_eq {start : Nat} {fs : List Field}
    (h : ∀ (i : Nat) f, fs[i]? = some f → f.offset = start + i) :
    fs.map (fun f => (f.name, f.offset)) = (fs.map (·.name)).zipIdx start := by
  refine List.ext_getElem? fun i => ?_
  rw [List.getElem?_map, List.getElem?_zipIdx, List.getElem?_map]
  cases hi : fs[i]? with
  | none => rfl
  | some f => simp [h i f hi]

end FieldLayoutLemmas

open FieldLayoutLemmas

/-- In the table of every program each declared class has a parent; its own fields are those that could be
entered, in the slots behind the fields of the parent, in the order of the text, and with them the fields
are counted. No slot of an instance, whatever its class, belongs to two fields of the class and its
ancestors, and all of them lie within the instance. -/
theorem fields_laid_out (p : Program Span) :
    (∀ c ∈ declared p.classes, ∃ parent r, (laidOut p).parent? c.1 = some parent ∧
      (laidOut p).record? c.1 = some r ∧
      r.fields.map (fun f => (f.name, f.offset)) =
        ((acceptedFields p c.1).map (·.name.name)).zipIdx ((laidOut p).fieldCount parent) ∧
      (laidOut p).fieldCount? c.1 =
        some ((laidOut p).fieldCount parent + (acceptedFields p c.1).length)) ∧
    ∀ (id a b : TypeId) r q f g, id < (laidOut p).size → a ∈ (laidOut p).ancestors id →
      b ∈ (laidOut p).ancestors id → (laidOut p).record? a = some r → (laidOut p).record? b = some q →
      f ∈ r.fields → g ∈ q.fields →
      f.offset < (laidOut p).fieldCount id ∧ (f.offset = g.offset → a = b ∧ f = g) := by
  obtain ⟨hroot, hplaced⟩ := entries_placedOnce p
  obtain ⟨hlays, hroot', hall⟩ := ClassTable.layout_placed hroot hplaced
  refine ⟨fun c hc => ?_, fun id a b r q f g hid ha hb hr hq hf hg => ?_⟩
  · obtain ⟨parent, fields, methods, hr, hnames⟩ := entries_record hc
    obtain ⟨fields', count, hr', hblank⟩ := hlays.each _ _ hr
    obtain ⟨start, hstart⟩ := hall _ _ hr'
    have hnames' : fields'.map (·.name) = (acceptedFields p c.1).map (·.name.name) := by
      have hblanks := congrArg (List.map (·.name)) hblank
      rw [List.map_map, List.map_map] at hblanks
      exact hblanks.trans hnames
    have hlength : fields'.length = (acceptedFields p c.1).length := by
      simpa using congrArg List.length hnames'
    have hcount : (laidOut p).fieldCount parent = start :=
      ClassTable.fieldCount_of_parent hstart rfl
    refine ⟨parent, _, ClassTable.parent_of_record hr', hr', ?_, ?_⟩
    · rw [hcount, ← hnames']
      exact slots_eq hstart.offsets
    · rw [hcount, ← hlength]
      rw [ClassTable.fieldCount?, laidOut, hr', Option.bind_some]
      exact hstart.count
  · exact ⟨ClassTable.offset_lt hroot' hall hid ha hr hf,
      ClassTable.offset_injective hroot' hall hid ha hb hr hq hf hg⟩

/-- A child in front of its parent, with a field that is declared twice and one that the parent has as
well, and two classes that inherit from each other. -/
def tangled : Program Span :=
  let name (x : String) : Ident := ⟨x, .none⟩
  let field (x : String) : MemberDecl Span :=
    .field ⟨.everyone, name x, .named (name "boolean"), none, .none⟩
  ⟨[⟨name "Child", some (name "Parent"), [field "kept", field "shared", field "kept"], .none⟩,
    ⟨name "Parent", none, [field "shared", field "own"], .none⟩,
    ⟨name "Ping", some (name "Pong"), [field "ball"], .none⟩,
    ⟨name "Pong", some (name "Ping"), [field "ball"], .none⟩], .none⟩

/-- The child's fields lie behind the two of its parent, and the two that share a name do not share a
slot. -/
theorem tangled_fields_laid_out : errors tangled ≠ [] ∧
    (∃ c ∈ declared tangled.classes, c.2.name.name = "Child" ∧ ∃ r,
      (laidOut tangled).record? c.1 = some r ∧
      r.fields.map (fun f => (f.name, f.offset)) = [("kept", 2), ("shared", 3)] ∧
      (laidOut tangled).fieldCount? c.1 = some 4) ∧
    ∃ r q f g, (laidOut tangled).record? 6 = some r ∧ (laidOut tangled).record? 7 = some q ∧
      f ∈ r.fields ∧ g ∈ q.fields ∧ f.name = g.name ∧ f.offset < 4 ∧ f.offset ≠ g.offset := by
  obtain ⟨hplaced, hapart⟩ := fields_laid_out tangled
  refine ⟨by decide +kernel, ?_, ?_⟩
  · have hc : ∃ c ∈ declared tangled.classes, c.1 = 6 ∧ c.2.name.name = "Child" :=
      ⟨_, List.mem_of_getElem? (i := 0) rfl, rfl, rfl⟩
    obtain ⟨⟨_, d⟩, hc, rfl, hname⟩ := hc
    obtain ⟨parent, r, hparent, hr, hfields, hcount⟩ := hplaced _ hc
    obtain rfl : parent = 7 := by
      have : (laidOut tangled).parent? 6 = some 7 := by decide +kernel
      exact Option.some.inj (hparent.symm.trans this)
    have hnames : (acceptedFields tangled 6).map (·.name.name) = ["kept", "shared"] := by decide +kernel
    have htwo : (laidOut tangled).fieldCount 7 = 2 := by decide +kernel
    have hlength : (acceptedFields tangled 6).length = 2 := by
      simpa using congrArg List.length hnames
    rw [hnames, htwo] at hfields
    rw [htwo, hlength] at hcount
    exact ⟨_, hc, hname, r, hr, hfields, hcount⟩
  · have hr : ∃ r f, (laidOut tangled).record? 6 = some r ∧ f ∈ r.fields ∧ f.name = "shared" :=
      ⟨_, _, rfl, List.mem_of_getElem? (i := 1) rfl, rfl⟩
    have hq : ∃ q g, (laidOut tangled).record? 7 = some q ∧ g ∈ q.fields ∧ g.name = "shared" :=
      ⟨_, _, rfl, List.mem_of_getElem? (i := 0) rfl, rfl⟩
    obtain ⟨r, f, hr, hf, hfname⟩ := hr
    obtain ⟨q, g, hq, hg, hgname⟩ := hq
    have hfour : (laidOut tangled).fieldCount 6 = 4 := by decide +kernel
    obtain ⟨hlt, hne⟩ := hapart 6 6 7 r q f g (by decide +kernel) (by decide +kernel)
      (by decide +kernel) hr hq hf hg
    exact ⟨r, q, f, g, hr, hq, hf, hg, hfname.trans hgname.symm, hfour ▸ hlt,
      fun h => absurd (hne h).1 (by decide)⟩

end Check

end ClassLang
